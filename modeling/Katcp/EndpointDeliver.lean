import Katcp.EndpointSound

namespace Katcp

variable {s s' : Endpoints} {queued queued' : List EpMessage} {log out : List EndpointEvent} {ep : EpId}
  {m : EpMessage} {a : EndpointAction}

namespace EndpointEvent

/-- A message comes into the queue of an endpoint. -/
def arrival (ep : EpId) : EndpointEvent → Option EpMessage
  | .queued m => if m.mTo = ep then some m else none
  | .replied _ r => if r.mTo = ep then some r else none
  | _ => none

/-- A message leaves it: the wake function is done with it, or the endpoint is released. -/
def departure (ep : EpId) : EndpointEvent → Option EpMessage
  | .returned x m r => if x = ep ∧ r.keeps = false then some m else none
  | .flushed x m => if x = ep then some m else none
  | _ => none

/-- A message to an endpoint is answered. -/
def answered (ep : EpId) : EndpointEvent → Option EpMessage
  | .replied m _ => if m.mTo = ep then some m else none
  | _ => none

def handing : EndpointEvent → Option (EpId × EpMessage)
  | .woken ep m => some (ep, m)
  | _ => none

def reply : EndpointEvent → Option (EpMessage × EpMessage)
  | .replied m r => some (m, r)
  | _ => none

end EndpointEvent

def arrivals (ep : EpId) (log : List EndpointEvent) : List EpMessage := log.filterMap (EndpointEvent.arrival ep)

def departures (ep : EpId) (log : List EndpointEvent) : List EpMessage := log.filterMap (EndpointEvent.departure ep)

def answeredAt (ep : EpId) (log : List EndpointEvent) : List EpMessage := log.filterMap (EndpointEvent.answered ep)

def lastHanding (log : List EndpointEvent) : Option (EpId × EpMessage) :=
  (log.filterMap EndpointEvent.handing).getLast?

/-- What is handed to a wake function is the oldest message that has not left the queue, what a wake
function returns from is the last that was handed out, and a message is answered at most once,
as it leaves. -/
structure Dealt (log : List EndpointEvent) : Prop where
  handed : ∀ i ep m, log[i]? = some (.woken ep m) →
    ∃ later, arrivals ep (log.take i) = departures ep (log.take i) ++ m :: later
  returned : ∀ i ep m r, log[i]? = some (.returned ep m r) → lastHanding (log.take i) = some (ep, m)
  answered : ∀ ep, (answeredAt ep log).Sublist (departures ep log)

/-- The same, with the messages that are still queued. -/
structure Dealing (s : Endpoints) (queued : List EpMessage) (log : List EndpointEvent) : Prop extends Dealt log where
  order : ∀ ep, arrivals ep log = departures ep log ++ queuedAt queued ep
  awake : ∀ ex ep m, s.walk = .waking ex ep m → lastHanding log = some (ep, m)

theorem arrivals_append (ep : EpId) (log out : List EndpointEvent) :
    arrivals ep (log ++ out) = arrivals ep log ++ arrivals ep out := List.filterMap_append ..

theorem departures_append (ep : EpId) (log out : List EndpointEvent) :
    departures ep (log ++ out) = departures ep log ++ departures ep out := List.filterMap_append ..

theorem answeredAt_append (ep : EpId) (log out : List EndpointEvent) :
    answeredAt ep (log ++ out) = answeredAt ep log ++ answeredAt ep out := List.filterMap_append ..

theorem lastHanding_append_quiet (log : List EndpointEvent) (h : out.filterMap EndpointEvent.handing = []) :
    lastHanding (log ++ out) = lastHanding log := by
  rw [lastHanding, List.filterMap_append, h, List.append_nil]
  rfl

/-- More events follow, where only the first may be about a wake function. -/
theorem Dealt.append (h : Dealt log)
    (hwoken : ∀ i ep m, out[i]? = some (.woken ep m) →
      i = 0 ∧ ∃ later, arrivals ep log = departures ep log ++ m :: later)
    (hreturned : ∀ i ep m r, out[i]? = some (.returned ep m r) → i = 0 ∧ lastHanding log = some (ep, m))
    (hanswered : ∀ ep, (answeredAt ep out).Sublist (departures ep out)) : Dealt (log ++ out) := by
  refine ⟨fun i ep m hi => ?_, fun i ep m r hi => ?_, fun ep => ?_⟩
  · by_cases hlt : i < log.length
    · rw [List.getElem?_append_left hlt] at hi
      rw [List.take_append_of_le_length (by omega)]
      exact h.handed i ep m hi
    · rw [List.getElem?_append_right (by omega)] at hi
      obtain ⟨hz, hlater⟩ := hwoken _ ep m hi
      obtain rfl : i = log.length := by omega
      rwa [List.take_left]
  · by_cases hlt : i < log.length
    · rw [List.getElem?_append_left hlt] at hi
      rw [List.take_append_of_le_length (by omega)]
      exact h.returned i ep m r hi
    · rw [List.getElem?_append_right (by omega)] at hi
      obtain ⟨hz, hlast⟩ := hreturned _ ep m r hi
      obtain rfl : i = log.length := by omega
      rwa [List.take_left]
  · rw [answeredAt_append, departures_append]
    exact (h.answered ep).append (hanswered ep)

/-- Events that are not about wake functions. -/
theorem Dealt.append_quiet (h : Dealt log) (hquiet : ∀ x ∈ out, x.handing = none ∧ ∀ ep m r, x ≠ .returned ep m r)
    (hanswered : ∀ ep, (answeredAt ep out).Sublist (departures ep out)) : Dealt (log ++ out) := by
  refine h.append (fun i ep m hi => ?_) (fun i ep m r hi => ?_) hanswered
  · exact absurd (hquiet _ (List.mem_of_getElem? hi)).1 nofun
  · exact absurd rfl ((hquiet _ (List.mem_of_getElem? hi)).2 ep m r)

theorem Dealing.quiet (h : Dealing s queued log) (hw : ∀ ex ep m, s'.walk = .waking ex ep m → s.walk = .waking ex ep m)
    (hq : queued' = queued) : Dealing s' queued' log := by
  subst hq
  exact ⟨h.toDealt, h.order, fun ex ep m he => h.awake ex ep m (hw ex ep m he)⟩

theorem flushEvents_cons (s : Endpoints) (ep : EpId) (m : EpMessage) (ms : List EpMessage) :
    s.flushEvents ep (m :: ms) =
      .flushed ep m :: ((s.detached m).toList.map (.replied m ·) ++ s.flushEvents ep ms) := by
  simp [Endpoints.flushEvents]

theorem arrivals_flush (s : Endpoints) (ep x : EpId) (ms : List EpMessage) :
    arrivals x (s.flushEvents ep ms) = queuedAt (ms.filterMap s.detached) x := by
  induction ms with
  | nil => rfl
  | cons m ms ih =>
    rw [arrivals] at ih
    rw [flushEvents_cons, arrivals]
    cases hd : s.detached m with
    | none => simpa [List.filterMap_cons, EndpointEvent.arrival, hd] using ih
    | some r =>
      by_cases hr : r.mTo = x
      · simpa [List.filterMap_cons, EndpointEvent.arrival, hd, hr, queuedAt] using ih
      · simpa [List.filterMap_cons, EndpointEvent.arrival, hd, hr, queuedAt] using ih

theorem departures_flush (s : Endpoints) (ep x : EpId) (ms : List EpMessage) :
    departures x (s.flushEvents ep ms) = if ep = x then ms else [] := by
  induction ms with
  | nil => simp [departures, Endpoints.flushEvents]
  | cons m ms ih =>
    rw [departures] at ih
    rw [flushEvents_cons, departures]
    cases hd : s.detached m with
    | none => by_cases hx : ep = x <;> simpa [List.filterMap_cons, EndpointEvent.departure, hx] using ih
    | some r => by_cases hx : ep = x <;> simpa [List.filterMap_cons, EndpointEvent.departure, hx] using ih

theorem answered_flush (s : Endpoints) {ep : EpId} {ms : List EpMessage} (h : ∀ m ∈ ms, m.mTo = ep) (x : EpId) :
    (answeredAt x (s.flushEvents ep ms)).Sublist (if ep = x then ms else []) := by
  induction ms with
  | nil => simp [answeredAt, Endpoints.flushEvents]
  | cons m ms ih =>
    have hm := h m (List.mem_cons_self ..)
    have ih := ih fun m' hm' => h m' (List.mem_cons_of_mem m hm')
    rw [answeredAt] at ih
    rw [flushEvents_cons, answeredAt]
    by_cases hx : ep = x
    · cases hd : s.detached m with
      | none => simpa [List.filterMap_cons, EndpointEvent.answered, hx] using ih.cons m
      | some r => simpa [List.filterMap_cons, EndpointEvent.answered, hx, hm] using ih
    · cases hd : s.detached m with
      | none => simpa [List.filterMap_cons, EndpointEvent.answered, hx] using ih
      | some r => simpa [List.filterMap_cons, EndpointEvent.answered, hx, hm] using ih

theorem flushEvents_quiet (s : Endpoints) (ep : EpId) (ms : List EpMessage) :
    ∀ x ∈ s.flushEvents ep ms, x.handing = none ∧ ∀ ep m r, x ≠ .returned ep m r := by
  intro x hx
  obtain ⟨m, -, hx⟩ := List.mem_flatMap.mp hx
  rcases List.mem_cons.mp hx with rfl | hx
  · exact ⟨rfl, nofun⟩
  · obtain ⟨r, -, rfl⟩ := List.mem_map.mp hx
    exact ⟨rfl, nofun⟩

/-- What an outcome adds to the queues and to the log. -/
theorem arrivals_replies (m : EpMessage) (rs : List EpMessage) (x : EpId) :
    arrivals x (rs.map (.replied m ·)) = queuedAt rs x := by
  induction rs with
  | nil => rfl
  | cons r rs ih =>
    rw [arrivals] at ih
    rw [arrivals, List.map_cons]
    by_cases hr : r.mTo = x <;> simpa [EndpointEvent.arrival, hr, queuedAt] using ih

theorem departures_replies (m : EpMessage) (rs : List EpMessage) (x : EpId) :
    departures x (rs.map (.replied m ·)) = [] := by
  refine List.filterMap_eq_nil_iff.mpr fun e he => ?_
  obtain ⟨r, -, rfl⟩ := List.mem_map.mp he
  rfl

theorem answered_outcome (m : EpMessage) (r : Option EpMessage) (x : EpId) :
    (answeredAt x (r.toList.map (.replied m ·))).Sublist (if m.mTo = x then [m] else []) := by
  cases r with
  | none => simp [answeredAt]
  | some r => by_cases hx : m.mTo = x <;> simp [answeredAt, EndpointEvent.answered, hx]

theorem Served.dealing {c : EndpointCall} (h : Dealing s queued log)
    (hc : Served s queued c s' queued' out) : Dealing s' queued' (log ++ out) := by
  cases hc with
  | created _ _ _ hwalk =>
    rw [List.append_nil]
    exact h.quiet (fun ex ep m he => hwalk ▸ he) rfl
  | @sent source target px ack address s' hsame hrx =>
    refine ⟨h.toDealt.append_quiet ?_ fun ep => ?_, fun ep => ?_, fun ex ep m he => ?_⟩
    · intro x hx
      obtain rfl := List.mem_singleton.mp hx
      exact ⟨rfl, nofun⟩
    · exact List.nil_sublist _
    · rw [arrivals_append, departures_append, h.order, queuedAt_append]
      by_cases hx : target = ep <;> simp [arrivals, departures, EndpointEvent.arrival, EndpointEvent.departure, queuedAt, hx]
    · rw [lastHanding_append_quiet log rfl]
      exact h.awake ex ep m (hsame.walk ▸ he)
  | unsent hsame =>
    rw [List.append_nil]
    exact h.quiet (fun ex ep m he => hsame.walk ▸ he) rfl
  | held _ _ hwalk =>
    rw [List.append_nil]
    exact h.quiet (fun ex ep m he => hwalk ▸ he) rfl
  | closed _ _ _ _ _ _ hwalk =>
    rw [List.append_nil]
    exact h.quiet (fun ex ep m he => hwalk ▸ he) rfl
  | @released x st s' hst hup hstation hfirst hwalk =>
    have hto : ∀ m ∈ queuedAt queued x, m.mTo = x := fun m hm => by simpa using (List.mem_filter.mp hm).2
    have hquiet := flushEvents_quiet s x (queuedAt queued x)
    refine ⟨h.toDealt.append_quiet hquiet fun ep => ?_, fun ep => ?_, fun ex ep m he => ?_⟩
    · rw [departures_flush]
      exact answered_flush s hto ep
    · rw [arrivals_append, departures_append, h.order, arrivals_flush, departures_flush, queuedAt_append]
      by_cases hx : x = ep
      · subst hx
        have hnone : queuedAt (queued.filter (·.mTo ≠ x)) x = [] := by
          simp [queuedAt, List.filter_filter]
        rw [hnone, if_pos rfl, List.nil_append]
      · rw [if_neg hx, queuedAt_others (Ne.symm hx), List.append_nil, List.append_assoc]
    · rw [lastHanding_append_quiet log (List.filterMap_eq_nil_iff.mpr fun e he => (hquiet e he).1)]
      exact h.awake ex ep m (hwalk ▸ he)

/-- The message that a wake function is done with is the oldest one. -/
theorem EndpointsInv.oldest {ex : Option EpId} (h : EndpointsInv s queued) (hwalk : s.walk = .waking ex ep m)
    (hm : m ∈ queuedAt queued ep) : ∃ rest, queuedAt queued ep = m :: rest := by
  obtain ⟨st, hst⟩ := Option.isSome_iff_exists.mp (h.awake ex ep m hwalk)
  obtain ⟨hin, hto⟩ := List.mem_filter.mp hm
  have hto : m.mTo = ep := by simpa using hto
  have hup := (h.openness.reached m hin st (hto ▸ hst)).1
  exact List.head?_eq_some_iff.mp (h.heading ex ep m hwalk st hst hup)

theorem Dealing.taken {ex : Option EpId} {r : KatcpResult} (hinv : EndpointsInv s queued) (h : Dealing s queued log)
    (hwalk : s.walk = .waking ex ep m) (hk : r.keeps = false) (hm : m ∈ queuedAt queued ep)
    (hwalk' : s'.walk = .poll ex ep ∨ s'.walk = .settle ex ep) :
    Dealing s' (queued.erase m ++ (s.outcome m r).toList)
      (log ++ .returned ep m r :: (s.outcome m r).toList.map (.replied m ·)) := by
  obtain ⟨rest, hrest⟩ := hinv.oldest hwalk hm
  obtain ⟨hin, hto⟩ := List.mem_filter.mp hm
  obtain rfl : m.mTo = ep := by simpa using hto
  have hdeparture : ∀ x, departures x (.returned m.mTo m r :: (s.outcome m r).toList.map (.replied m ·)) =
      if m.mTo = x then [m] else [] := fun x => by
    have hreplies := departures_replies m (s.outcome m r).toList x
    rw [departures] at hreplies
    rw [departures]
    by_cases hx : m.mTo = x <;> simp [EndpointEvent.departure, hk, hx, hreplies]
  have hback : queuedAt (s.outcome m r).toList m.mTo = [] := by
    cases r with
    | done code => exact queuedAt_answer hinv.ledger hin code none
    | own => rfl
    | pause => rfl
    | yield => rfl
  refine ⟨h.toDealt.append (fun i x m' hi => ?_) (fun i x m' r' hi => ?_) fun x => ?_, fun x => ?_, fun ex' x m' he => ?_⟩
  · have hmem := List.mem_of_getElem? hi
    rcases List.mem_cons.mp hmem with he | he
    · cases he
    · obtain ⟨r', -, he⟩ := List.mem_map.mp he
      cases he
  · cases i with
    | zero =>
      cases Option.some.inj hi
      exact ⟨rfl, h.awake ex _ m hwalk⟩
    | succ i =>
      rw [List.getElem?_cons_succ] at hi
      obtain ⟨r', -, he⟩ := List.mem_map.mp (List.mem_of_getElem? hi)
      cases he
  · rw [hdeparture]
    exact answered_outcome m (s.outcome m r) x
  · have harrival : arrivals x (.returned m.mTo m r :: (s.outcome m r).toList.map (.replied m ·)) =
        queuedAt (s.outcome m r).toList x := arrivals_replies m (s.outcome m r).toList x
    rw [arrivals_append, departures_append, h.order, harrival, hdeparture, queuedAt_append]
    by_cases hx : m.mTo = x
    · subst hx
      rw [queuedAt_erase, hrest, hback, if_pos rfl, List.erase_cons_head]
      simp
    · rw [if_neg hx, queuedAt_erase_ne queued hx, List.append_nil, List.append_assoc]
  · rcases hwalk' with hwalk' | hwalk' <;> rw [hwalk'] at he <;> cases he

theorem Walked.dealing (hinv : EndpointsInv s queued) (h : Dealing s queued log)
    (hw : Walked s queued a s' queued' out) : Dealing s' queued' (log ++ out) := by
  cases hw with
  | begun hwalk =>
    rw [List.append_nil]
    exact h.quiet nofun rfl
  | ended hwalk =>
    rw [List.append_nil]
    exact h.quiet nofun rfl
  | came hwalk hst =>
    rw [List.append_nil]
    refine h.quiet (fun ex ep m he => ?_) rfl
    dsimp only at he
    split at he <;> cases he
  | drained hwalk =>
    rw [List.append_nil]
    exact h.quiet nofun rfl
  | @woken ex ep m rest hwalk hq =>
    refine ⟨h.toDealt.append (fun i x m' hi => ?_) (fun i x m' r' hi => ?_) fun x => List.nil_sublist _, fun x => ?_,
      fun ex' x m' he => ?_⟩
    · rw [List.getElem?_singleton] at hi
      obtain ⟨hz, he⟩ := Option.ite_none_right_eq_some.mp hi
      cases he
      exact ⟨hz, rest, hq ▸ h.order ep⟩
    · rw [List.getElem?_singleton] at hi
      obtain ⟨hz, he⟩ := Option.ite_none_right_eq_some.mp hi
      cases he
    · have ha : arrivals x [.woken ep m] = [] := rfl
      have hd : departures x [.woken ep m] = [] := rfl
      rw [arrivals_append, departures_append, ha, hd, List.append_nil, List.append_nil]
      exact h.order x
    · cases he
      simp [lastHanding, EndpointEvent.handing]
  | @kept ex ep m r s' hwalk hk hstation hfirst hwalk' =>
    have hnone : ∀ x, departures x [.returned ep m r] = [] := fun x => by simp [departures, EndpointEvent.departure, hk]
    refine ⟨h.toDealt.append (fun i x m' hi => ?_) (fun i x m' r' hi => ?_) fun x => List.nil_sublist _, fun x => ?_,
      fun ex' x m' he => ?_⟩
    · rw [List.getElem?_singleton] at hi
      obtain ⟨hz, he⟩ := Option.ite_none_right_eq_some.mp hi
      cases he
    · rw [List.getElem?_singleton] at hi
      obtain ⟨hz, he⟩ := Option.ite_none_right_eq_some.mp hi
      cases he
      exact ⟨hz, h.awake ex ep m hwalk⟩
    · have ha : arrivals x [.returned ep m r] = [] := rfl
      rw [arrivals_append, departures_append, ha, hnone, List.append_nil, List.append_nil]
      exact h.order x
    · rw [hwalk'] at he
      cases he
  | taken hwalk hk hm _ _ hwalk' => exact h.taken hinv hwalk hk hm hwalk'
  | passed hwalk =>
    rw [List.append_nil]
    exact h.quiet nofun rfl
  | collected hwalk _ _ _ _ _ _ hwalk' =>
    rw [List.append_nil]
    refine h.quiet (fun ex ep m he => ?_) rfl
    rw [hwalk'] at he
    cases he

/-- The messages of a queue are determined by it. -/
theorem Window.unique {α : Type} {g : Gueue α} {xs ys : List α} (hx : Window g xs) (hy : Window g ys) : xs = ys := by
  have hlen : xs.length = ys.length := hx.count.symm.trans hy.count
  refine List.ext_getElem? fun i => ?_
  by_cases hi : i < xs.length
  · exact Option.some.inj ((hx.live i hi).symm.trans (hy.live i (by omega)))
  · rw [List.getElem?_eq_none (by omega), List.getElem?_eq_none (by omega)]

/-- In the order in which they came, messages are handed out, leave and are answered, or wait. -/
structure Delivered (s : Endpoints) (log : List EndpointEvent) : Prop extends Dealt log where
  waiting : ∀ ep e, s.store ep = some e →
    ∃ ms, Window e.eQueue ms ∧ arrivals ep log = departures ep log ++ ms
  freed : ∀ ep, s.store ep = none → arrivals ep log = departures ep log

/-- The replies that an action queues, each with the message it answers: the one to the message that
a wake function is done with, those to the messages of a released endpoint, and no others. -/
structure Answering (s : Endpoints) (a : EndpointAction) (replies : List (EpMessage × EpMessage)) : Prop where
  returned : ∀ r ex ep m, a = .wakeReturns r → s.walk = .waking ex ep m →
    replies = (s.outcome m r).toList.map (m, ·)
  released : ∀ ep e ms, a = .call (.release ep) → s.store ep = some e → Window e.eQueue ms →
    replies = ms.filterMap fun m => (s.detached m).map (m, ·)
  others : (∀ r, a ≠ .wakeReturns r) → (∀ ep, a ≠ .call (.release ep)) → replies = []

theorem replies_flush (s : Endpoints) (ep : EpId) (ms : List EpMessage) :
    (s.flushEvents ep ms).filterMap EndpointEvent.reply = ms.filterMap fun m => (s.detached m).map (m, ·) := by
  induction ms with
  | nil => rfl
  | cons m ms ih =>
    rw [flushEvents_cons]
    cases hd : s.detached m with
    | none => simpa [List.filterMap_cons, EndpointEvent.reply, hd] using ih
    | some r => simpa [List.filterMap_cons, EndpointEvent.reply, hd] using ih

theorem replies_outcome (m : EpMessage) (r : Option EpMessage) :
    (r.toList.map (EndpointEvent.replied m ·)).filterMap EndpointEvent.reply = r.toList.map (m, ·) := by
  cases r <;> rfl

theorem Answering.none {c : EndpointCall} (h : ∀ ep, c ≠ .release ep) : Answering s (.call c) [] :=
  ⟨nofun, fun ep _ _ he => absurd (EndpointAction.call.inj he) (h ep), fun _ _ => rfl⟩

theorem Answering.advance (s : Endpoints) : Answering s .advance [] := ⟨nofun, nofun, fun _ _ => rfl⟩

theorem Acted.answering (hinv : EndpointsInv s queued) (ha : Acted s queued a s' queued' out) :
    Answering s a (out.filterMap EndpointEvent.reply) := by
  cases ha with
  | served _ hc =>
    cases hc with
    | created => exact .none nofun
    | sent => exact .none nofun
    | unsent => exact .none nofun
    | held _ _ _ hc => exact .none hc
    | closed _ _ _ _ _ _ _ hc => exact .none hc
    | @released ep st s' hst =>
      refine ⟨nofun, fun x e ms he hx hwindow => ?_, fun _ hno => absurd rfl (hno ep)⟩
      cases he
      rw [replies_flush, hwindow.unique (hinv.ledger.tally.queue ep e hx).window]
  | walked hw =>
    cases hw with
    | begun => exact .advance s
    | ended => exact .advance s
    | came => exact .advance s
    | drained => exact .advance s
    | woken => exact .advance s
    | passed => exact .advance s
    | collected => exact .advance s
    | @kept ex ep m r s' hwalk hk =>
      refine ⟨fun r' ex' ep' m' he hwalk' => ?_, nofun, fun hno => absurd rfl (hno r)⟩
      cases he
      cases hwalk.symm.trans hwalk'
      cases r with
      | own => rfl
      | pause => rfl
      | yield => rfl
      | done code => cases hk
    | @taken ex ep m r s' hwalk =>
      refine ⟨fun r' ex' ep' m' he hwalk' => ?_, nofun, fun hno => absurd rfl (hno r)⟩
      cases he
      cases hwalk.symm.trans hwalk'
      exact replies_outcome m (s.outcome m r)

theorem endpoints_run_dealing (h : endpointMachine.Runs (fun _ _ => True) s log) :
    ∃ queued, EndpointsInv s queued ∧ Dealing s queued log := by
  refine h.invariant (fun s log => ∃ queued, EndpointsInv s queued ∧ Dealing s queued log) ?_ ?_
  · exact ⟨[], noEndpoints_inv, ⟨⟨nofun, nofun, fun _ => .slnil⟩, fun _ => rfl, nofun⟩⟩
  · rintro s log a s' ⟨queued, hinv, hdeal⟩ - hs
    have ha := Machine.act_of_step (f := fun s a => s.act a) (fun _ _ => rfl) (fun _ _ => rfl) hs
    obtain ⟨queued', hacted, hinv'⟩ := hinv.act ha
    refine ⟨queued', hinv', ?_⟩
    cases hacted with
    | served _ hc => exact hc.dealing hdeal
    | walked hw => exact hw.dealing hinv hdeal

/-- Whatever is called and returned, messages are delivered in order and answered as they should. -/
theorem endpoints_deliver (h : endpointMachine.Runs (fun _ _ => True) s log) :
    Delivered s log ∧ ∀ a s', endpointMachine.step s a = some s' →
      Answering s a ((endpointMachine.emits s a).filterMap EndpointEvent.reply) := by
  obtain ⟨queued, hinv, hdeal⟩ := endpoints_run_dealing h
  refine ⟨⟨hdeal.toDealt, fun ep e he => ?_, fun ep hn => ?_⟩, fun a s' hs => ?_⟩
  · exact ⟨queuedAt queued ep, (hinv.ledger.tally.queue ep e he).window, hdeal.order ep⟩
  · have hnone : s.station ep = none := by rw [Endpoints.station, hn]; rfl
    have hempty : queuedAt queued ep = [] := List.filter_eq_nil_iff.mpr fun m hm => by
      simpa using (hinv.ledger.absent hnone hm).2
    rw [hdeal.order, hempty, List.append_nil]
  · obtain ⟨queued', hacted, -⟩ := hinv.act
      (Machine.act_of_step (f := fun s a => s.act a) (fun _ _ => rfl) (fun _ _ => rfl) hs)
    exact hacted.answering hinv

/-- A request is handed out twice, as its wake function pauses first, and is answered once. -/
theorem endpoints_deliver_retried : ∃ s log, Delivered s log ∧ departures 2 log = arrivals 2 log ∧
    (log.filterMap EndpointEvent.handing).length = 2 ∧ (answeredAt 2 log).length = 1 :=
  ⟨_, _, (endpoints_deliver (Machine.Runs.exec (.start (m := endpointMachine))
    [.call (.create true false 1), .call (.create true false 2),
      .call (.send (some 1) 2 [textOf "?do"] true 50), .advance, .advance, .advance, .wakeReturns .pause,
      .advance, .advance, .advance, .advance, .advance, .advance, .advance, .advance,
      .wakeReturns (.done .ok)] rfl (Machine.meets_true _ _ _))).1, rfl, rfl, rfl⟩

end Katcp
