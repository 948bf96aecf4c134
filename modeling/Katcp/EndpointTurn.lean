import Katcp.EndpointData

namespace Katcp

section

open Function

/-- How often a message names an endpoint. -/
def EpMessage.names (m : EpMessage) (ep : EpId) : Nat :=
  (if m.mFrom = some ep then 1 else 0) + if m.mTo = ep then 1 else 0

def namings (ms : List EpMessage) (ep : EpId) : Nat := (ms.map (·.names ep)).sum

/-- The messages to an endpoint, in the order they were queued. -/
def queuedAt (queued : List EpMessage) (ep : EpId) : List EpMessage := queued.filter (·.mTo = ep)

def Endpoints.station (s : Endpoints) (ep : EpId) : Option Station := (s.store ep).map Endpoint.toStation

/-- Every endpoint counts so many references, and its queue holds the messages to it. -/
structure Tallied (s : Endpoints) (n : EpId → Nat) (queued : List EpMessage) : Prop where
  counted : ∀ ep e, s.store ep = some e → e.eRefcount = n ep
  queue : ∀ ep e, s.store ep = some e →
    Holds false (some computePrecedenceEndpoint) e.eQueue (queuedAt queued ep)
  level : ∀ ep e, s.store ep = some e → e.ePrecedence = 0

/-- Only messages came and went. -/
structure SameStations (s s' : Endpoints) : Prop where
  station : ∀ ep, s'.station ep = s.station ep
  first : s'.sEndpoints = s.sEndpoints
  held : s'.held = s.held
  walk : s'.walk = s.walk

variable {s s1 s2 s' : Endpoints} {n n' : EpId → Nat} {hand queued queued' : List EpMessage} {ep : EpId}
  {e f : Endpoint} {msg m : EpMessage}

theorem SameStations.refl (s : Endpoints) : SameStations s s := ⟨fun _ => rfl, rfl, rfl, rfl⟩

theorem SameStations.trans (h : SameStations s s1) (h' : SameStations s1 s2) : SameStations s s2 :=
  ⟨fun ep => (h'.station ep).trans (h.station ep), h'.first.trans h.first, h'.held.trans h.held,
    h'.walk.trans h.walk⟩

theorem SameStations.heap (h : SameStations s s') (heap : List MsgId) :
    SameStations s { s' with heap := heap } := ⟨h.station, h.first, h.held, h.walk⟩

theorem Endpoints.store_of_station (h : (s.station ep).isSome) : ∃ e, s.store ep = some e :=
  Option.isSome_iff_exists.mp (by simpa [Endpoints.station] using h)

theorem Endpoints.station_of_store (h : s.store ep = some e) : s.station ep = some e.toStation := by
  simp [Endpoints.station, h]

theorem Endpoints.put_store (s : Endpoints) (ep : EpId) (e : Option Endpoint) :
    (s.put ep e).store = update s.store ep e := rfl

theorem put_same (he : s.store ep = some e) (hs : f.toStation = e.toStation) :
    SameStations s (s.put ep (some f)) := by
  refine ⟨fun x => ?_, rfl, rfl, rfl⟩
  rw [Endpoints.station, Endpoints.put_store, Endpoints.station]
  by_cases hx : x = ep
  · subst hx
    rw [update_self, he, Option.map_some, Option.map_some, hs]
  · rw [update_of_ne hx]

theorem Tallied.put (h : Tallied s n queued) (hc : f.eRefcount = n' ep) (hn : ∀ x, x ≠ ep → n' x = n x)
    (hq : Holds false (some computePrecedenceEndpoint) f.eQueue (queuedAt queued' ep))
    (hother : ∀ x, x ≠ ep → queuedAt queued' x = queuedAt queued x) (hl : f.ePrecedence = 0) :
    Tallied (s.put ep (some f)) n' queued' := by
  refine ⟨fun x g hf => ?_, fun x g hf => ?_, fun x g hf => ?_⟩
  all_goals
    rw [Endpoints.put_store] at hf
    by_cases hx : x = ep
    · subst hx
      rw [update_self] at hf
      cases hf
      assumption
    · rw [update_of_ne hx] at hf
      first
      | exact (h.counted x g hf).trans (hn x hx).symm
      | exact hother x hx ▸ h.queue x g hf
      | exact h.level x g hf

theorem Tallied.congr (h : Tallied s n queued) (hn : ∀ x, n' x = n x) : Tallied s n' queued :=
  ⟨fun x e he => (h.counted x e he).trans (hn x).symm, h.queue, h.level⟩

theorem Tallied.heap (h : Tallied s n queued) (heap : List MsgId) : Tallied { s with heap := heap } n queued :=
  ⟨h.counted, h.queue, h.level⟩

theorem referenceEndpoint_spec (h : Tallied s n queued) (hep : (s.station ep).isSome) :
    ∃ s', s.referenceEndpoint ep = some s' ∧ SameStations s s' ∧ s'.heap = s.heap ∧
      Tallied s' (fun x => n x + if ep = x then 1 else 0) queued := by
  obtain ⟨e, he⟩ := Endpoints.store_of_station hep
  refine ⟨_, by rw [Endpoints.referenceEndpoint, Endpoints.onEndpoint, he]; rfl,
    put_same (f := { e with eRefcount := e.eRefcount + 1 }) he rfl, rfl, ?_⟩
  refine h.put ?_ (fun x hx => ?_) (h.queue ep e he) (fun _ _ => rfl) (h.level ep e he)
  · simp [h.counted ep e he]
  · simp [Ne.symm hx]

theorem forgetEndpoint_spec (h : Tallied s (fun x => n x + if ep = x then 1 else 0) queued)
    (hep : (s.station ep).isSome) :
    ∃ s', s.forgetEndpoint ep = some s' ∧ SameStations s s' ∧ s'.heap = s.heap ∧ Tallied s' n queued := by
  obtain ⟨e, he⟩ := Endpoints.store_of_station hep
  have hcount : e.eRefcount = n ep + 1 := by simpa using h.counted ep e he
  refine ⟨_, by rw [Endpoints.forgetEndpoint, he, Option.bind_some, if_pos (by omega)],
    put_same (f := { e with eRefcount := e.eRefcount - 1 }) he rfl, rfl, ?_⟩
  refine h.put ?_ (fun x hx => ?_) (h.queue ep e he) (fun _ _ => rfl) (h.level ep e he)
  · simp [hcount]
  · simp [Ne.symm hx]

theorem precedenceEndpoint_spec (h : Tallied s n queued) (hep : (s.station ep).isSome) :
    ∃ s', s.precedenceEndpoint ep 0 = some s' ∧ SameStations s s' ∧ s'.heap = s.heap ∧ Tallied s' n queued := by
  obtain ⟨e, he⟩ := Endpoints.store_of_station hep
  refine ⟨_, by rw [Endpoints.precedenceEndpoint, Endpoints.onEndpoint, he]; rfl,
    put_same (f := { e with ePrecedence := 0 }) he rfl, rfl, ?_⟩
  exact h.put (h.counted ep e he) (fun _ _ => rfl) (h.queue ep e he) (fun _ _ => rfl) rfl

theorem referenceSender_spec {source : Option EpId} (h : Tallied s n queued)
    (hep : ∀ f, source = some f → (s.station f).isSome) :
    ∃ s', s.referenceSender source = some s' ∧ SameStations s s' ∧ s'.heap = s.heap ∧
      Tallied s' (fun x => n x + if source = some x then 1 else 0) queued := by
  cases source with
  | none => exact ⟨s, rfl, .refl s, rfl, h⟩
  | some f =>
    obtain ⟨s', hs, hsame, hheap, ht⟩ := referenceEndpoint_spec h (hep f rfl)
    exact ⟨s', hs, hsame, hheap, ht.congr fun x => by simp⟩

theorem forgetSender_spec {source : Option EpId}
    (h : Tallied s (fun x => n x + if source = some x then 1 else 0) queued)
    (hep : ∀ f, source = some f → (s.station f).isSome) :
    ∃ s', s.forgetSender source = some s' ∧ SameStations s s' ∧ s'.heap = s.heap ∧ Tallied s' n queued := by
  cases source with
  | none => exact ⟨s, rfl, .refl s, rfl, h⟩
  | some f => exact forgetEndpoint_spec (h.congr fun x => by simp) (hep f rfl)

/-- What the allocated messages, those in hand and those in a queue, have to do with the endpoints. -/
structure Ledger (s : Endpoints) (hand queued : List EpMessage) : Prop where
  tally : Tallied s (fun ep => namings (hand ++ queued) ep + s.held ep) queued
  heap : s.heap.Perm ((hand ++ queued).map EpMessage.mAddress)
  distinct : ((hand ++ queued).map EpMessage.mAddress).Nodup
  target : ∀ m ∈ hand ++ queued, (s.station m.mTo).isSome
  source : ∀ m ∈ hand ++ queued, ∀ f, m.mFrom = some f → (s.station f).isSome ∧ f ≠ m.mTo
  acked : ∀ m ∈ hand ++ queued, m.mWack → m.mFrom.isSome
  unheld : ∀ ep, s.station ep = none → s.held ep = 0

theorem namings_cons (m : EpMessage) (ms : List EpMessage) (ep : EpId) :
    namings (m :: ms) ep = m.names ep + namings ms ep := by simp [namings]

/-- The ledger is the same where messages change places. -/
theorem Ledger.rebuild {hand' : List EpMessage} (h : Ledger s hand queued)
    (hperm : (hand' ++ queued').Perm (hand ++ queued))
    (hlive : ∀ x, (s'.station x).isSome = (s.station x).isSome) (hheap : s'.heap = s.heap) (hheld : s'.held = s.held)
    (ht : Tallied s' (fun x => namings (hand ++ queued) x + s.held x) queued') : Ledger s' hand' queued' := by
  refine ⟨ht.congr fun x => ?_, ?_, (hperm.map _).nodup_iff.mpr h.distinct, ?_, ?_, ?_, ?_⟩
  · rw [hheld, namings, (hperm.map _).sum_nat]
    rfl
  · rw [hheap]
    exact h.heap.trans (hperm.map _).symm
  · intro m hm
    rw [hlive]
    exact h.target m (hperm.mem_iff.mp hm)
  · intro m hm f hf
    rw [hlive]
    exact h.source m (hperm.mem_iff.mp hm) f hf
  · exact fun m hm => h.acked m (hperm.mem_iff.mp hm)
  · intro x hx
    have hnone := hlive x
    rw [hx] at hnone
    rw [hheld]
    exact h.unheld x (by simpa using hnone.symm)

theorem createMessage_spec {source : Option EpId} {target : EpId} {px : Words} {ack : Bool} {address : MsgId}
    (h : Ledger s [] queued) (hfree : address ∉ s.heap) (hack : ¬ (ack ∧ source = none))
    (hsource : ∀ f, source = some f → (s.station f).isSome ∧ f ≠ target) (htarget : (s.station target).isSome) :
    ∃ s', s.createMessage source target px ack address = some (⟨address, ack, px, source, target⟩, s') ∧
      SameStations s s' ∧ Ledger s' [⟨address, ack, px, source, target⟩] queued := by
  obtain ⟨s1, hs1, hsame1, hheap1, ht1⟩ := referenceSender_spec h.tally fun f hf => (hsource f hf).1
  obtain ⟨s2, hs2, hsame2, hheap2, ht2⟩ := referenceEndpoint_spec ht1 (by rw [hsame1.station]; exact htarget)
  have hsame := (hsame1.trans hsame2).heap (address :: s2.heap)
  refine ⟨{ s2 with heap := address :: s2.heap }, ?_, hsame, ?_⟩
  · rw [Endpoints.createMessage, if_neg hfree, if_neg hack, hs1, Option.bind_some, hs2]
    rfl
  · have hheap := h.heap
    have hstation := hsame.station
    rw [List.nil_append] at hheap
    refine ⟨(ht2.heap _).congr fun x => ?_, ?_, ?_, ?_, ?_, ?_, ?_⟩
    · rw [hsame.held, List.cons_append, namings_cons, EpMessage.names]
      dsimp only
      omega
    · dsimp only
      rw [hheap2, hheap1]
      exact hheap.cons _
    · refine List.nodup_cons.mpr ⟨fun hin => hfree ?_, h.distinct⟩
      exact hheap.mem_iff.mpr hin
    · intro m hm
      rw [hstation]
      rcases List.mem_cons.mp hm with rfl | hm
      · exact htarget
      · exact h.target m hm
    · intro m hm f hf
      rw [hstation]
      rcases List.mem_cons.mp hm with rfl | hm
      · exact hsource f hf
      · exact h.source m hm f hf
    · intro m hm hw
      rcases List.mem_cons.mp hm with rfl | hm
      · exact Option.isSome_iff_ne_none.mpr fun hn => hack ⟨hw, hn⟩
      · exact h.acked m hm hw
    · intro x hx
      rw [hstation] at hx
      rw [hsame.held]
      exact h.unheld x hx

/-- A message in hand is destroyed. -/
theorem destroyMessage_spec (h : Ledger s (msg :: hand) queued) :
    ∃ s', s.destroyMessage msg = some s' ∧ SameStations s s' ∧ Ledger s' hand queued := by
  have hin : msg ∈ (msg :: hand) ++ queued := List.mem_cons_self ..
  have ht : Tallied s (fun x => (namings (hand ++ queued) x + s.held x + if msg.mTo = x then 1 else 0) +
      if msg.mFrom = some x then 1 else 0) queued := h.tally.congr fun x => by
    rw [List.cons_append, namings_cons, EpMessage.names]
    omega
  obtain ⟨s1, hs1, hsame1, hheap1, ht1⟩ := forgetSender_spec ht fun f hf => (h.source msg hin f hf).1
  obtain ⟨s2, hs2, hsame2, hheap2, ht2⟩ := forgetEndpoint_spec ht1 (by rw [hsame1.station]; exact h.target msg hin)
  have hmem : msg.mAddress ∈ s.heap := h.heap.mem_iff.mpr (List.mem_map_of_mem hin)
  have hsame := (hsame1.trans hsame2).heap (s2.heap.erase msg.mAddress)
  have hstation := hsame.station
  refine ⟨{ s2 with heap := s2.heap.erase msg.mAddress }, ?_, hsame, ?_⟩
  · rw [Endpoints.destroyMessage, if_pos hmem, hs1, Option.bind_some, hs2]
    rfl
  · refine ⟨(ht2.heap _).congr fun x => by rw [hsame.held], ?_, (List.nodup_cons.mp h.distinct).2, ?_, ?_, ?_, ?_⟩
    · have herase := h.heap.erase msg.mAddress
      rw [List.cons_append, List.map_cons, List.erase_cons_head] at herase
      dsimp only
      rwa [hheap2, hheap1]
    · intro m hm
      rw [hstation]
      exact h.target m (List.mem_cons_of_mem _ hm)
    · intro m hm f hf
      rw [hstation]
      exact h.source m (List.mem_cons_of_mem _ hm) f hf
    · exact fun m hm => h.acked m (List.mem_cons_of_mem _ hm)
    · intro x hx
      rw [hstation] at hx
      rw [hsame.held]
      exact h.unheld x hx

end

section

open Function

variable {s s1 s2 s' : Endpoints} {hand queued : List EpMessage} {ep : EpId} {e f : Endpoint}
  {msg m : EpMessage} {code : ResultCode} {extra : Option Text}

def Endpoints.receives (s : Endpoints) (ep : EpId) : Bool := (s.station ep).any Station.eRx

/-- The reply that a request is turned into. -/
def EpMessage.reply (m : EpMessage) (source : EpId) (code : ResultCode) (extra : Option Text) : EpMessage :=
  ⟨m.mAddress, false, turnaroundExtra m.mParse code extra, some m.mTo, source⟩

/-- The reply to a message that is closed with this code: there is one to a request that wants one,
if its sender still receives. -/
def Endpoints.answer (s : Endpoints) (m : EpMessage) (code : ResultCode) (extra : Option Text) : Option EpMessage :=
  if isRequest m.mParse ∧ m.mWack then
    m.mFrom.bind fun source => if s.receives source then some (m.reply source code extra) else none
  else none

theorem SameStations.receives (h : SameStations s s') (ep : EpId) : s'.receives ep = s.receives ep := by
  rw [Endpoints.receives, h.station, Endpoints.receives]

theorem answer_receives (h : ∀ x, s'.receives x = s.receives x) (m : EpMessage) (code : ResultCode)
    (extra : Option Text) : s'.answer m code extra = s.answer m code extra := by
  simp only [Endpoints.answer, h]

theorem SameStations.answer (h : SameStations s s') (m : EpMessage) (code : ResultCode) (extra : Option Text) :
    s'.answer m code extra = s.answer m code extra := answer_receives h.receives m code extra

/-- A message in hand goes into a queue, or stays in hand where its target does not receive. -/
theorem queueMessage_spec (h : Ledger s [msg] queued) :
    (s.receives msg.mTo = true ∧ ∃ s', s.queueMessage msg = some (0, s') ∧ SameStations s s' ∧
      Ledger s' [] (queued ++ [msg])) ∨
    (s.receives msg.mTo = false ∧ s.queueMessage msg = some (-1, s)) := by
  obtain ⟨e, he⟩ := Endpoints.store_of_station (h.target msg (List.mem_cons_self ..))
  have hrx : s.receives msg.mTo = e.eRx := by
    simp [Endpoints.receives, Endpoints.station_of_store he]
  rw [hrx, Endpoints.queueMessage, he, Option.bind_some]
  cases e.eRx with
  | false => exact .inr ⟨rfl, rfl⟩
  | true =>
    obtain ⟨g, hg, hh⟩ := addTailGueue_holds (h.tally.queue _ e he) msg
    have hsame := put_same (f := { e with eQueue := g }) he rfl
    have hperm : ([] ++ (queued ++ [msg])).Perm ([msg] ++ queued) := List.perm_append_singleton msg queued
    refine .inl ⟨rfl, s.put msg.mTo (some { e with eQueue := g }), ?_, hsame,
      h.rebuild hperm (fun x => congrArg _ (hsame.station x)) rfl rfl ?_⟩
    · rw [if_pos rfl, hg]
      rfl
    · refine h.tally.put (h.tally.counted _ e he) (fun _ _ => rfl) ?_ (fun x hx => ?_) (h.tally.level _ e he)
      · simpa [queuedAt] using hh
      · simp [queuedAt, Ne.symm hx]

/-- A message in hand is turned around, which swaps those that it names. -/
theorem Ledger.turn {source : EpId} (h : Ledger s (m :: hand) queued) (hm : m.mFrom = some source)
    (code : ResultCode) (extra : Option Text) : Ledger s (m.reply source code extra :: hand) queued := by
  have hin : m ∈ (m :: hand) ++ queued := List.mem_cons_self ..
  obtain ⟨hlive, hne⟩ := h.source m hin source hm
  refine ⟨h.tally.congr fun x => ?_, h.heap, h.distinct, ?_, ?_, ?_, h.unheld⟩
  · rw [List.cons_append, List.cons_append, namings_cons, namings_cons, EpMessage.names, EpMessage.names, hm]
    simp only [EpMessage.reply, Option.some.injEq]
    by_cases h1 : source = x <;> by_cases h2 : m.mTo = x <;> simp [h1, h2]
  · intro m' hm'
    rcases List.mem_cons.mp hm' with rfl | hm'
    · exact hlive
    · exact h.target m' (List.mem_cons_of_mem _ hm')
  · intro m' hm' f hf
    rcases List.mem_cons.mp hm' with rfl | hm'
    · obtain rfl := Option.some.inj hf
      exact ⟨h.target m hin, Ne.symm hne⟩
    · exact h.source m' (List.mem_cons_of_mem _ hm') f hf
  · intro m' hm' hw
    rcases List.mem_cons.mp hm' with rfl | hm'
    · rfl
    · exact h.acked m' (List.mem_cons_of_mem _ hm') hw

/-- A message that was taken out of the queue of its target is answered, or destroyed. -/
theorem closeMessage_spec (h : Ledger s [m] queued) (code : ResultCode) (extra : Option Text) :
    ∃ s', s.closeMessage m.mTo m code extra =
        some (s', (s.answer m code extra).toList.map (.replied m ·)) ∧
      SameStations s s' ∧ Ledger s' [] (queued ++ (s.answer m code extra).toList) := by
  obtain ⟨sd, hd, hsamed, hledgerd⟩ := destroyMessage_spec h
  unfold Endpoints.closeMessage Endpoints.answer
  cases hreq : isRequest m.mParse with
  | false =>
    refine ⟨sd, ?_, hsamed, ?_⟩
    · simp [hd]
    · simpa using hledgerd
  | true =>
    rw [if_pos rfl]
    unfold Endpoints.turnaroundEndpoint
    rw [if_neg (by simp)]
    cases hw : m.mWack with
    | false =>
      refine ⟨sd, ?_, hsamed, ?_⟩
      · simp [hd]
      · simpa using hledgerd
    | true =>
      obtain ⟨source, hs⟩ := Option.isSome_iff_exists.mp (h.acked m (List.mem_cons_self ..) hw)
      have hturn := h.turn hs code extra
      obtain ⟨st, hdt, hsamet, hledgert⟩ := destroyMessage_spec hturn
      rw [if_pos rfl, if_pos ⟨rfl, rfl⟩, hs, Option.bind_some, Option.bind_some, hreq, if_pos rfl]
      have hreply : { m with
          mWack := false
          mParse := turnaroundExtra m.mParse code extra
          mFrom := some m.mTo
          mTo := source } = m.reply source code extra := rfl
      rw [hreply]
      rcases queueMessage_spec hturn with ⟨hrx, s', hq, hsame, hledger⟩ | ⟨hrx, hq⟩
      · have hrx' : s.receives source = true := hrx
        refine ⟨s', ?_, hsame, ?_⟩
        · simp [hq, hrx']
        · simpa [hrx'] using hledger
      · have hrx' : s.receives source = false := hrx
        refine ⟨st, ?_, hsamet, ?_⟩
        · simp [hq, hdt, hrx']
        · simpa [hrx'] using hledgert

theorem answer_eq_some {r : EpMessage} : s.answer m code extra = some r ↔
    isRequest m.mParse = true ∧ m.mWack = true ∧
      ∃ source, m.mFrom = some source ∧ s.receives source = true ∧ m.reply source code extra = r := by
  unfold Endpoints.answer
  constructor
  · intro h
    obtain ⟨⟨hreq, hw⟩, h⟩ := Option.ite_none_right_eq_some.mp h
    obtain ⟨source, hs, h⟩ := Option.bind_eq_some_iff.mp h
    obtain ⟨hrx, h⟩ := Option.ite_none_right_eq_some.mp h
    exact ⟨hreq, hw, source, hs, hrx, Option.some.inj h⟩
  · rintro ⟨hreq, hw, source, hs, hrx, rfl⟩
    rw [if_pos ⟨hreq, hw⟩, hs, Option.bind_some, if_pos hrx]

/-- A reply does not go back into the queue that the request was in. -/
theorem queuedAt_answer (h : Ledger s hand queued) (hm : m ∈ hand ++ queued) (code : ResultCode)
    (extra : Option Text) : queuedAt (s.answer m code extra).toList m.mTo = [] := by
  refine List.filter_eq_nil_iff.mpr fun r hr => ?_
  obtain ⟨-, -, source, hs, -, rfl⟩ := answer_eq_some.mp (Option.mem_toList.mp hr)
  have hne := (h.source m hm source hs).2
  simp [EpMessage.reply, hne]

theorem queuedAt_erase (queued : List EpMessage) (m : EpMessage) (ep : EpId) :
    queuedAt (queued.erase m) ep = (queuedAt queued ep).erase m := List.erase_filter.symm

theorem queuedAt_erase_ne (queued : List EpMessage) (hm : m.mTo ≠ ep) :
    queuedAt (queued.erase m) ep = queuedAt queued ep := by
  rw [queuedAt_erase, List.erase_of_not_mem]
  intro hin
  exact hm (by simpa using (List.mem_filter.mp hin).2)

/-- A message leaves the queue of its target. -/
theorem Ledger.take {g : Gueue EpMessage} (h : Ledger s [] queued) (hm : m ∈ queued)
    (he : s.store m.mTo = some e)
    (hg : Holds false (some computePrecedenceEndpoint) g ((queuedAt queued m.mTo).erase m)) :
    Ledger (s.put m.mTo (some { e with eQueue := g })) [m] (queued.erase m) := by
  have hperm : ([m] ++ queued.erase m).Perm ([] ++ queued) := (List.perm_cons_erase hm).symm
  have hsame := put_same (f := { e with eQueue := g }) he rfl
  refine h.rebuild hperm (fun x => congrArg _ (hsame.station x)) rfl rfl ?_
  refine h.tally.put (h.tally.counted _ e he) (fun _ _ => rfl) ?_ (fun x hx => ?_) (h.tally.level _ e he)
  · rw [queuedAt_erase]
    exact hg
  · exact queuedAt_erase_ne queued (Ne.symm hx)

/-- The queue of a message's target is told to give it up. -/
theorem takeMessage_spec (h : Ledger s [] queued) (hm : m ∈ queued) :
    ∃ s', s.takeMessage m.mTo m = some s' ∧ SameStations s s' ∧ Ledger s' [m] (queued.erase m) := by
  obtain ⟨e, he⟩ := Endpoints.store_of_station (h.target m hm)
  obtain ⟨g, hg, hh⟩ := removeDatumGueue_spec (h.tally.queue _ e he) m
  have hin : m ∈ queuedAt queued m.mTo := List.mem_filter.mpr ⟨hm, by simp⟩
  have hfound : (queuedAt queued m.mTo).find? (· = m) ≠ none := by
    intro hn
    simpa using List.find?_eq_none.mp hn m hin
  refine ⟨_, ?_, put_same (f := { e with eQueue := g }) he rfl, h.take hm he hh⟩
  rw [Endpoints.takeMessage, he, Option.bind_some, hg, Option.bind_some]
  dsimp only
  rw [if_neg hfound]

/-- A message that is in no queue cannot be taken out of one. -/
theorem takeMessage_none (h : Ledger s [] queued) (hm : m ∉ queuedAt queued ep) : s.takeMessage ep m = none := by
  unfold Endpoints.takeMessage
  cases he : s.store ep with
  | none => rfl
  | some e =>
    obtain ⟨g, hg, -⟩ := removeDatumGueue_spec (h.tally.queue _ e he) m
    have hnone : (queuedAt queued ep).find? (· = m) = none := List.find?_eq_none.mpr fun x hx => by
      rintro hxm
      exact hm (by simpa using (of_decide_eq_true hxm) ▸ hx)
    rw [Option.bind_some, hg, hnone]
    rfl

theorem Ledger.putQueue {g : Gueue EpMessage} (h : Ledger s [] queued) (he : s.store ep = some e)
    (hg : Holds false (some computePrecedenceEndpoint) g (queuedAt queued ep)) :
    Ledger (s.put ep (some { e with eQueue := g })) [] queued := by
  have hsame := put_same (f := { e with eQueue := g }) he rfl
  refine h.rebuild (List.Perm.refl _) (fun x => congrArg _ (hsame.station x)) rfl rfl ?_
  exact h.tally.put (h.tally.counted _ e he) (fun _ _ => rfl) hg (fun _ _ => rfl) (h.tally.level _ e he)

theorem Ledger.precedence (h : Ledger s hand queued) (hlive : (s.station ep).isSome) :
    ∃ s', s.precedenceEndpoint ep 0 = some s' ∧ SameStations s s' ∧ Ledger s' hand queued := by
  obtain ⟨s', hs, hsame, hheap, ht⟩ := precedenceEndpoint_spec h.tally hlive
  exact ⟨s', hs, hsame, h.rebuild (List.Perm.refl _) (fun x => congrArg _ (hsame.station x)) hheap hsame.held ht⟩

/-- The reply to a message that is found in the queue of an endpoint that is released. -/
def Endpoints.detached (s : Endpoints) (m : EpMessage) : Option EpMessage :=
  s.answer m .fail (some (textOf "handler detached"))

def Endpoints.flushEvents (s : Endpoints) (ep : EpId) (ms : List EpMessage) : List EndpointEvent :=
  ms.flatMap fun m => .flushed ep m :: (s.detached m).toList.map (.replied m ·)

theorem flushEndpoint_spec {n : Nat} (h : Ledger s [] queued) (hlive : (s.station ep).isSome)
    (hn : (queuedAt queued ep).length < n) :
    ∃ s', Endpoints.flushEndpoint n s ep = some (s', s.flushEvents ep (queuedAt queued ep)) ∧ SameStations s s' ∧
      Ledger s' [] (queued.filter (·.mTo ≠ ep) ++ (queuedAt queued ep).filterMap s.detached) := by
  induction n generalizing s queued with
  | zero => exact absurd hn (Nat.not_lt_zero _)
  | succ n ih =>
    obtain ⟨e, he⟩ := Endpoints.store_of_station hlive
    obtain ⟨g, hg, hh⟩ := removeHeadGueue_spec (h.tally.queue _ e he)
    rw [Endpoints.flushEndpoint, he, Option.bind_some, hg, Option.bind_some]
    cases hxs : queuedAt queued ep with
    | nil =>
      rw [hxs] at hh
      have hall : queued.filter (·.mTo ≠ ep) = queued := List.filter_eq_self.mpr fun m hm => by
        simpa using List.filter_eq_nil_iff.mp hxs m hm
      refine ⟨_, rfl, put_same (f := { e with eQueue := g }) he rfl, ?_⟩
      rw [hall, List.filterMap_nil, List.append_nil]
      exact h.putQueue he (hxs ▸ hh)
    | cons m rest =>
      have hin : m ∈ queuedAt queued ep := by rw [hxs]; exact List.mem_cons_self ..
      have hm : m ∈ queued := (List.mem_filter.mp hin).1
      have hto : m.mTo = ep := by simpa using (List.mem_filter.mp hin).2
      subst hto
      rw [hxs, List.tail_cons] at hh
      have hsame1 := put_same (f := { e with eQueue := g }) he rfl
      have hledger1 := h.take hm he (by rw [hxs, List.erase_cons_head]; exact hh)
      obtain ⟨s2, hs2, hsame2, hledger2⟩ := closeMessage_spec hledger1 .fail (some (textOf "handler detached"))
      have hsame := hsame1.trans hsame2
      have hreply := queuedAt_answer h (List.mem_append_right [] hm) .fail (some (textOf "handler detached"))
      rw [hsame1.answer, ← Endpoints.detached] at hs2 hledger2
      rw [← Endpoints.detached] at hreply
      have hrest : queuedAt (queued.erase m ++ (s.detached m).toList) m.mTo = rest := by
        rw [queuedAt, List.filter_append, ← queuedAt, ← queuedAt, queuedAt_erase, hxs, List.erase_cons_head, hreply,
          List.append_nil]
      have hothers : (queued.erase m ++ (s.detached m).toList).filter (·.mTo ≠ m.mTo) =
          queued.filter (·.mTo ≠ m.mTo) ++ (s.detached m).toList := by
        rw [List.filter_append, ← List.erase_filter, List.erase_of_not_mem (by simp)]
        congr 1
        refine List.filter_eq_self.mpr fun r hr => ?_
        simpa using List.filter_eq_nil_iff.mp hreply r hr
      obtain ⟨s', hs', hsame', hledger'⟩ := ih hledger2 (by rw [hsame.station]; exact hlive) (by
        rw [hrest]
        rw [hxs, List.length_cons] at hn
        omega)
      have hdetached : s2.detached = s.detached := funext fun m => hsame.answer m _ _
      rw [hrest, hothers, hdetached] at hledger'
      rw [hrest, Endpoints.flushEvents, hdetached, ← Endpoints.flushEvents] at hs'
      refine ⟨s', ?_, hsame.trans hsame', ?_⟩
      · simp only [List.head?_cons]
        rw [hs2, Option.bind_some]
        dsimp only
        rw [hs']
        rfl
      · cases hd : s.detached m with
        | none => simpa [List.filterMap_cons, hd] using hledger'
        | some r => simpa [List.filterMap_cons, hd] using hledger'

theorem Endpoints.put_station (s : Endpoints) (ep : EpId) (e : Endpoint) :
    (s.put ep (some e)).station = update s.station ep (some e.toStation) := by
  funext x
  rw [Endpoints.station, Endpoints.put_store]
  by_cases hx : x = ep
  · subst hx
    rw [update_self, update_self]
    rfl
  · rw [update_of_ne hx, update_of_ne hx]
    rfl

theorem Ledger.setStation (h : Ledger s [] queued) (he : s.store ep = some e) (st : Station) :
    Ledger (s.put ep (some { e with toStation := st })) [] queued := by
  refine h.rebuild (List.Perm.refl _) (fun x => ?_) rfl rfl ?_
  · rw [Endpoints.put_station]
    by_cases hx : x = ep
    · subst hx
      rw [update_self, Endpoints.station_of_store he]
      rfl
    · rw [update_of_ne hx]
  · exact h.tally.put (h.tally.counted _ e he) (fun _ _ => rfl) (h.tally.queue _ e he) (fun _ _ => rfl)
      (h.tally.level _ e he)

/-- What a release leaves of an endpoint. -/
def Station.released (e : Station) : Station := { e with eUp := false, eRx := false, eTx := false, eWake := false }

theorem releaseEndpoint_spec (h : Ledger s [] queued) (he : s.store ep = some e) (hup : e.eUp = true) :
    ∃ s', s.releaseEndpoint ep = some (s', s.flushEvents ep (queuedAt queued ep)) ∧
      s'.station = update s.station ep (some e.toStation.released) ∧
      s'.sEndpoints = s.sEndpoints ∧ s'.held = s.held ∧ s'.walk = s.walk ∧
      Ledger s' [] (queued.filter (·.mTo ≠ ep) ++ (queuedAt queued ep).filterMap s.detached) := by
  have hledger1 := h.setStation he { e.toStation with eWake := false }
  have hstation1 := s.put_station ep { e with eWake := false }
  have hcount := (h.tally.queue _ e he).count
  have hlive : ((s.put ep (some { e with eWake := false })).station ep).isSome := by
    rw [hstation1, update_self]
    rfl
  obtain ⟨s2, hs2, hsame2, hledger2⟩ := flushEndpoint_spec (n := e.eQueue.gCount + 1) hledger1 hlive (by omega)
  have hdetached : (s.put ep (some { e with eWake := false })).detached = s.detached := by
    funext m
    refine answer_receives (fun x => ?_) m _ _
    rw [Endpoints.receives, Endpoints.receives, hstation1]
    by_cases hx : x = ep
    · subst hx
      rw [update_self, Endpoints.station_of_store he]
      rfl
    · rw [update_of_ne hx]
  rw [hdetached] at hledger2
  rw [Endpoints.flushEvents, hdetached, ← Endpoints.flushEvents] at hs2
  have hstation2 : s2.station ep = some { e.toStation with eWake := false } := by
    rw [hsame2.station, hstation1, update_self]
  have hlive2 : (s2.station ep).isSome := by
    rw [hstation2]
    rfl
  obtain ⟨e2, he2⟩ := Endpoints.store_of_station hlive2
  have hst2 := (Endpoints.station_of_store he2).symm.trans hstation2
  refine ⟨s2.put ep (some { e2 with eUp := false, eRx := false, eTx := false }), ?_, ?_, hsame2.first, hsame2.held,
    hsame2.walk, hledger2.setStation he2 _⟩
  · rw [Endpoints.releaseEndpoint, he, Option.bind_some, if_pos hup, hs2, Option.bind_some]
    dsimp only
    rw [Endpoints.onEndpoint, he2]
    rfl
  · rw [Endpoints.put_station, funext hsame2.station, hstation1, update_idem, Option.some.inj hst2]
    rfl

theorem createMessage_needs {source : Option EpId} {target : EpId} {px : Words} {ack : Bool} {address : MsgId}
    {n : EpId → Nat} {r : EpMessage × Endpoints} (h : Tallied s n queued)
    (hsource : ∀ f, source = some f → (s.station f).isSome)
    (hs : s.createMessage source target px ack address = some r) :
    address ∉ s.heap ∧ ¬ (ack ∧ source = none) ∧ (s.station target).isSome := by
  unfold Endpoints.createMessage at hs
  obtain ⟨hfree, hs⟩ := Option.ite_none_left_eq_some.mp hs
  obtain ⟨hack, hs⟩ := Option.ite_none_left_eq_some.mp hs
  refine ⟨hfree, hack, ?_⟩
  obtain ⟨s1, h1, hs⟩ := Option.bind_eq_some_iff.mp hs
  obtain ⟨s2, h2, -⟩ := Option.map_eq_some_iff.mp hs
  obtain ⟨s1', h1', hsame, -⟩ := referenceSender_spec h hsource
  cases h1'.symm.trans h1
  obtain ⟨e, he, -⟩ := Option.map_eq_some_iff.mp h2
  rw [← hsame.station, Endpoints.station_of_store he]
  rfl

/-- What `send_message_endpoint_katcp` does, if it returns. -/
theorem sendMessage_spec {source : Option EpId} {target : EpId} {px : Words} {ack : Bool} {address : MsgId}
    {r : Int} {out : List EndpointEvent} (h : Ledger s [] queued)
    (hs : s.sendMessage source target px ack address = some (r, s', out)) :
    SameStations s s' ∧
      ((s.receives target = true ∧ r = 0 ∧ out = [.queued ⟨address, ack, px, source, target⟩] ∧
          Ledger s' [] (queued ++ [⟨address, ack, px, source, target⟩])) ∨
        (s.receives target = false ∧ r = -1 ∧ out = [] ∧ Ledger s' [] queued)) := by
  unfold Endpoints.sendMessage at hs
  obtain ⟨hself, hs⟩ := Option.ite_none_left_eq_some.mp hs
  obtain ⟨hsend, hs⟩ := Option.ite_none_left_eq_some.mp hs
  obtain ⟨⟨msg, s1⟩, hcreate, hs⟩ := Option.bind_eq_some_iff.mp hs
  have hsource : ∀ f, source = some f → (s.station f).isSome ∧ f ≠ target := by
    rintro f rfl
    refine ⟨?_, fun he => hself (congrArg some he)⟩
    cases hf : s.store f with
    | none => simp [hf] at hsend
    | some e => simp [Endpoints.station, hf]
  obtain ⟨hfree, hack, htarget⟩ := createMessage_needs h.tally (fun f hf => (hsource f hf).1) hcreate
  obtain ⟨s1', hc, hsame1, hledger1⟩ := @createMessage_spec _ _ _ _ px _ _ h hfree hack hsource htarget
  cases hc.symm.trans hcreate
  obtain ⟨⟨r1, s2⟩, hqueue, hs⟩ := Option.bind_eq_some_iff.mp hs
  rw [← hsame1.receives]
  rcases queueMessage_spec hledger1 with ⟨hrx, s2', hq, hsame2, hledger2⟩ | ⟨hrx, hq⟩
  · cases hq.symm.trans hqueue
    dsimp only at hs
    rw [if_neg (by decide)] at hs
    split at hs
    next hreply =>
      obtain ⟨f, rfl, hs⟩ := Option.bind_eq_some_iff.mp hs
      have hlive : (s2.station f).isSome := by
        rw [(hsame1.trans hsame2).station]
        exact (hsource f rfl).1
      obtain ⟨s3, hp, hsame3, hledger3⟩ := hledger2.precedence hlive
      rw [endpointPrecedenceLow, hp, Option.map_some] at hs
      cases Option.some.inj hs
      exact ⟨(hsame1.trans hsame2).trans hsame3, .inl ⟨hrx, rfl, rfl, hledger3⟩⟩
    next =>
      cases Option.some.inj hs
      exact ⟨hsame1.trans hsame2, .inl ⟨hrx, rfl, rfl, hledger2⟩⟩
  · cases hq.symm.trans hqueue
    obtain ⟨s2, hd, hsame2, hledger2⟩ := destroyMessage_spec hledger1
    dsimp only at hs
    rw [if_pos (by decide), hd, Option.map_some] at hs
    cases Option.some.inj hs
    exact ⟨hsame1.trans hsame2, .inr ⟨hrx, rfl, rfl, hledger2⟩⟩

end

end Katcp
