import Katcp.ReplySlots

namespace Katcp

open Function

section

variable {κ : Type}

def liveAfter (live : SlotId → Option (Registration κ)) : HandlerEvent κ → SlotId → Option (Registration κ)
  | .registered i r => update live i (some r)
  | .retired i => update live i none
  | _ => live

/-- The handlers that were registered and not given up since. -/
def liveOf (log : List (HandlerEvent κ)) : SlotId → Option (Registration κ) := log.foldl liveAfter fun _ => none

def droppedAt (i : SlotId) : HandlerEvent κ → Option HandlerPart
  | .dropped j part => if j = i then some part else none
  | _ => none

/-- The references that the handler in a slot loses. -/
def dropsOf (i : SlotId) (out : List (HandlerEvent κ)) : List HandlerPart := out.filterMap (droppedAt i)

/-- The types of messages a handler was registered for. -/
def Registration.handles (r : Registration κ) (px : Words) : Bool :=
  (isReply px && r.actual.testBit 0) || (isInform px && r.actual.testBit 1)

/-- No slot that is searched before has a handler for the same messages. -/
def Foremost (log : List (HandlerEvent κ)) (i : SlotId) (r : Registration κ) : Prop :=
  ∀ j < i, ∀ q, liveOf log j = some q → ¬(q.recipient = r.recipient ∧ q.ptr = r.ptr)

/-- The results of a callback that end the use of its slot. -/
def retires : Option KatcpResult → Bool
  | some (.done _) => true
  | some .own => true
  | _ => false

structure SlotsKept (slots : SlotId → ReplySlot κ) (live : SlotId → Option (Registration κ)) : Prop where
  used : ∀ i r, live i = some r → slots i = r.slot
  free : ∀ i, live i = none → (slots i).rReply = none

variable {slots : SlotId → ReplySlot κ} {live : SlotId → Option (Registration κ)} {i j : SlotId}
  {log out more : List (HandlerEvent κ)} {s s' : ReplyFlat κ} {r : Registration κ} {rh : ReplySlot κ}

theorem SlotsKept.reply (h : SlotsKept slots live) (hlive : live i = some r) : (slots i).rReply = some r.call := by
  rw [h.used i r hlive]
  rfl

theorem SlotsKept.registered (h : SlotsKept slots live) (i : SlotId) (r : Registration κ) :
    SlotsKept (update slots i r.slot) (update live i (some r)) := by
  refine ⟨fun j q hj => ?_, fun j hj => ?_⟩
  · by_cases hji : j = i
    · subst hji
      rw [update_self] at hj
      cases Option.some.inj hj
      exact update_self ..
    · rw [update_of_ne hji] at hj ⊢
      exact h.used j q hj
  · by_cases hji : j = i
    · subst hji
      rw [update_self] at hj
      cases hj
    · rw [update_of_ne hji] at hj ⊢
      exact h.free j hj

theorem SlotsKept.retired (h : SlotsKept slots live) (i : SlotId) (hrh : rh.rReply = none) :
    SlotsKept (update slots i rh) (update live i none) := by
  refine ⟨fun j q hj => ?_, fun j hj => ?_⟩
  · by_cases hji : j = i
    · subst hji
      rw [update_self] at hj
      cases hj
    · rw [update_of_ne hji] at hj ⊢
      exact h.used j q hj
  · by_cases hji : j = i
    · subst hji
      rw [update_self]
      exact hrh
    · rw [update_of_ne hji] at hj ⊢
      exact h.free j hj

theorem SlotsKept.spoiled (h : SlotsKept slots live) (hfree : (slots i).rReply = none) (hrh : rh.rReply = none) :
    SlotsKept (update slots i rh) live := by
  have hnone : live i = none := by
    by_contra hsome
    obtain ⟨r, hr⟩ := Option.ne_none_iff_exists'.mp hsome
    rw [h.reply hr] at hfree
    cases hfree
  have hsame : update live i none = live := by
    rw [← hnone]
    exact update_eq_self i live
  exact hsame ▸ h.retired i hrh

theorem liveOf_append (log out : List (HandlerEvent κ)) :
    liveOf (log ++ out) = out.foldl liveAfter (liveOf log) := List.foldl_append ..

theorem foldl_liveAfter (hout : ∀ e ∈ out, ∀ live : SlotId → Option (Registration κ), liveAfter live e = live)
    (live : SlotId → Option (Registration κ)) : out.foldl liveAfter live = live := by
  induction out with
  | nil => rfl
  | cons e out ih =>
    have he := hout e (List.mem_cons_self ..) live
    rw [List.foldl_cons, he]
    exact ih fun e' he' => hout e' (List.mem_cons_of_mem e he')

theorem foldl_dropped (parts : List HandlerPart) (i : SlotId) (live : SlotId → Option (Registration κ)) :
    (parts.map (HandlerEvent.dropped i)).foldl liveAfter live = live := by
  refine foldl_liveAfter (fun e he _ => ?_) live
  obtain ⟨part, _, rfl⟩ := List.mem_map.mp he
  rfl

theorem foldl_endpoint (events : List EndpointEvent) (live : SlotId → Option (Registration κ)) :
    (events.map HandlerEvent.endpoint).foldl liveAfter live = live := by
  refine foldl_liveAfter (fun e he _ => ?_) live
  obtain ⟨part, _, rfl⟩ := List.mem_map.mp he
  rfl

theorem dropsOf_append (i : SlotId) (out more : List (HandlerEvent κ)) :
    dropsOf i (out ++ more) = dropsOf i out ++ dropsOf i more := List.filterMap_append ..

theorem dropsOf_dropped (parts : List HandlerPart) (i : SlotId) :
    dropsOf i (parts.map (HandlerEvent.dropped (κ := κ) i)) = parts := by
  induction parts with
  | nil => rfl
  | cons part parts ih => simpa [dropsOf, droppedAt] using ih

theorem dropsOf_others (hji : j ≠ i) (parts : List HandlerPart) :
    dropsOf i (parts.map (HandlerEvent.dropped (κ := κ) j)) = [] := by
  induction parts with
  | nil => rfl
  | cons part parts ih => simp [dropsOf, droppedAt, hji] at ih ⊢

theorem dropsOf_endpoint (i : SlotId) (events : List EndpointEvent) :
    dropsOf i (events.map (HandlerEvent.endpoint (κ := κ))) = [] := by
  induction events with
  | nil => rfl
  | cons e events ih => simp [dropsOf, droppedAt] at ih ⊢

/-- What is said of the references of a handler is said as its slot is given up. -/
def Orderly (out : List (HandlerEvent κ)) : Prop := ∀ i, .retired i ∉ out → dropsOf i out = []

theorem Orderly.append (h : Orderly out) (hmore : Orderly more) : Orderly (out ++ more) := by
  intro i hi
  rw [List.mem_append, not_or] at hi
  rw [dropsOf_append, h i hi.1, hmore i hi.2, List.append_nil]

theorem orderly_endpoint (events : List EndpointEvent) : Orderly (events.map (HandlerEvent.endpoint (κ := κ))) :=
  fun i _ => dropsOf_endpoint i events

/-- A slot is given up, and nothing else changes but the endpoints. -/
structure GivenUp (s : ReplyFlat κ) (i : SlotId) (s' : ReplyFlat κ) (out : List (HandlerEvent κ)) : Prop where
  slot : ∃ rh e, rh.rReply = none ∧ s' = { s.put i rh with endpoints := e }
  live : ∀ live, out.foldl liveAfter live = update live i none
  drops : (dropsOf i out).Perm (s.fReplies i).parts
  others : ∀ j, j ≠ i → dropsOf j out = []
  said : .retired i ∈ out

namespace GivenUp

theorem of_parts {e : Endpoints} (hrh : rh.rReply = none) :
    GivenUp s i { s.put i rh with endpoints := e } ((s.fReplies i).parts.map (.dropped i) ++ [.retired i]) where
  slot := ⟨rh, e, hrh, rfl⟩
  live live := by
    rw [List.foldl_append, foldl_dropped]
    rfl
  drops := by
    rw [dropsOf_append, dropsOf_dropped]
    exact List.Perm.of_eq (List.append_nil _)
  others j hj := by
    rw [dropsOf_append, dropsOf_others hj.symm]
    rfl
  said := List.mem_append_right _ (List.mem_singleton_self _)

theorem kept (h : GivenUp s i s' out) (hs : SlotsKept s.fReplies (liveOf log)) :
    SlotsKept s'.fReplies (liveOf (log ++ out)) := by
  obtain ⟨rh, e, hrh, rfl⟩ := h.slot
  rw [liveOf_append, h.live]
  exact hs.retired i hrh

theorem orderly (h : GivenUp s i s' out) : Orderly out := by
  intro j hj
  by_cases hji : j = i
  · exact absurd (hji ▸ h.said) hj
  · exact h.others j hji

end GivenUp

theorem retire_givenUp (h : s.retire i = some (s', out)) : GivenUp s i s' out := by
  obtain ⟨e1, _, h⟩ := Option.bind_eq_some_iff.mp h
  obtain ⟨e2, _, h⟩ := Option.map_eq_some_iff.mp h
  cases h
  exact .of_parts rfl

theorem cancelSlot_givenUp (h : s.cancelSlot i = some (s', out)) : GivenUp s i s' out := by
  obtain ⟨e1, _, h⟩ := Option.bind_eq_some_iff.mp h
  obtain ⟨e2, _, h⟩ := Option.map_eq_some_iff.mp h
  cases h
  exact .of_parts rfl

theorem cancelSlots_kept {slots : List SlotId} (h : ReplyFlat.cancelSlots slots s = some (s', out))
    (hs : SlotsKept s.fReplies (liveOf log)) :
    SlotsKept s'.fReplies (liveOf (log ++ out)) ∧ Orderly out ∧ s'.phase = s.phase := by
  induction slots generalizing s log out with
  | nil =>
    cases h
    exact ⟨by rwa [List.append_nil], fun _ _ => rfl, rfl⟩
  | cons i slots ih =>
    obtain ⟨⟨s1, first⟩, h1, h⟩ := Option.bind_eq_some_iff.mp h
    obtain ⟨⟨s2, rest⟩, h2, h⟩ := Option.map_eq_some_iff.mp h
    cases h
    have hgiven := cancelSlot_givenUp h1
    obtain ⟨hkept, hrest, hphase⟩ := ih h2 (hgiven.kept hs)
    obtain ⟨rh, e, _, rfl⟩ := hgiven.slot
    exact ⟨by rwa [← List.append_assoc], hgiven.orderly.append hrest, hphase⟩

theorem dropsOf_retire {initial : Words} (hinitial : (s.fReplies i).rInitial = some initial)
    (events : List EndpointEvent) {e : Endpoints}
    (h : GivenUp { s.put i { s.fReplies i with rInitial := none } with endpoints := e } i s' more) :
    GivenUp s i s' (.dropped i (.initial initial) :: events.map .endpoint ++ more) := by
  obtain ⟨rh, e', hrh, rfl⟩ := h.slot
  refine ⟨⟨rh, e', hrh, ?_⟩, fun live => ?_, ?_, fun j hj => ?_, ?_⟩
  · simp [ReplyFlat.put]
  · rw [List.cons_append, List.foldl_cons, List.foldl_append, foldl_endpoint]
    exact h.live live
  · have hdrops : (dropsOf i more).Perm ({ s.fReplies i with rInitial := none } : ReplySlot κ).parts := by
      simpa [ReplyFlat.put] using h.drops
    have hparts : (s.fReplies i).parts =
        ({ s.fReplies i with rInitial := none } : ReplySlot κ).parts ++ [.initial initial] := by
      simp [ReplySlot.parts, hinitial]
    have hfirst : dropsOf i [HandlerEvent.dropped (κ := κ) i (.initial initial)] = [.initial initial] := by
      simp [dropsOf, droppedAt]
    rw [List.cons_append, ← List.singleton_append, dropsOf_append, dropsOf_append, dropsOf_endpoint, hfirst, hparts,
      List.nil_append]
    exact List.perm_append_comm.trans (hdrops.append_right _)
  · rw [List.cons_append, ← List.singleton_append, dropsOf_append, dropsOf_append, dropsOf_endpoint, h.others j hj]
    simp [dropsOf, droppedAt, Ne.symm hj]
  · exact List.mem_append_right _ h.said

theorem processOutstanding_cases {px : Words} {result : Option KatcpResult} {address : MsgId}
    (h : s.processOutstanding i px result address = some (s', out)) :
    (isReply px = true ∧ retires result = true ∧ GivenUp s i s' out) ∨
      ((isReply px = true → retires result = false) ∧ s' = s ∧ out = []) := by
  unfold ReplyFlat.processOutstanding at h
  split at h
  next code =>
    split at h
    next hreply =>
      refine .inl ⟨hreply, rfl, ?_⟩
      split at h
      next initial hinitial =>
        split at h
        next =>
          obtain ⟨issuer, _, h⟩ := Option.bind_eq_some_iff.mp h
          obtain ⟨⟨r, e, events⟩, _, h⟩ := Option.bind_eq_some_iff.mp h
          obtain ⟨⟨s1, more⟩, h1, h⟩ := Option.map_eq_some_iff.mp h
          cases h
          exact dropsOf_retire hinitial events (retire_givenUp h1)
        next => cases h
      next => exact retire_givenUp h
    next hreply =>
      cases h
      exact .inr ⟨fun hr => absurd hr hreply, rfl, rfl⟩
  next =>
    split at h
    next hreply => exact .inl ⟨hreply, rfl, retire_givenUp h⟩
    next hreply =>
      cases h
      exact .inr ⟨fun hr => absurd hr hreply, rfl, rfl⟩
  all_goals
    cases h
    exact .inr ⟨fun _ => rfl, rfl, rfl⟩

theorem callbackFlat_cases {status : Int} (h : s.callbackFlat r = some (status, s', out)) :
    (status = -1 ∧ s' = s ∧ out = []) ∨
      (∃ i rh, status = -1 ∧ (s.fReplies i).rReply = none ∧ rh.rReply = none ∧ s' = s.put i rh ∧ out = []) ∨
      ∃ i e, status = 0 ∧ s.freeSlot = some i ∧ s' = { s.put i r.slot with endpoints := e } ∧
        out = [.registered i r] := by
  unfold ReplyFlat.callbackFlat at h
  split at h
  next => cases h
  split at h
  next => cases h
  split at h
  next =>
    cases h
    exact .inl ⟨rfl, rfl, rfl⟩
  next i hi =>
    have hfree : (s.fReplies i).rReply = none := by
      simpa using (Fin.findRev?_eq_some_iff.mp hi).1
    split at h
    next => cases h
    split at h
    next =>
      cases h
      exact .inr (.inl ⟨i, { s.fReplies i with rInitial := r.px }, rfl, hfree, hfree, rfl, rfl⟩)
    next =>
      obtain ⟨e1, _, h⟩ := Option.bind_eq_some_iff.mp h
      obtain ⟨e2, _, h⟩ := Option.map_eq_some_iff.mp h
      cases h
      exact .inr (.inr ⟨i, e2, rfl, hi, rfl, rfl⟩)

theorem wake_cases {source : Option EpId} {px : Words} (h : s.wake source px = some (s', out)) :
    s'.fReplies = s.fReplies ∧ (out = [] ∨ ∃ i, out = [.invoked i px]) := by
  unfold ReplyFlat.wake at h
  split at h
  next => cases h
  split at h
  next =>
    cases h
    exact ⟨rfl, .inl rfl⟩
  split at h
  next =>
    cases h
    exact ⟨rfl, .inl rfl⟩
  split at h
  next =>
    split at h
    next i _ =>
      cases h
      exact ⟨rfl, .inr ⟨i, rfl⟩⟩
    next =>
      split at h
      all_goals
        cases h
        exact ⟨rfl, .inl rfl⟩
  next =>
    split at h
    next =>
      cases h
      exact ⟨rfl, .inl rfl⟩
    next => cases h

theorem act_kept {a : ReplyAction κ} (h : s.act a = some (s', out)) (hs : SlotsKept s.fReplies (liveOf log)) :
    SlotsKept s'.fReplies (liveOf (log ++ out)) ∧ Orderly out := by
  cases a with
  | callback r =>
    obtain ⟨⟨status, s1, out1⟩, h, heq⟩ := Option.map_eq_some_iff.mp h
    cases heq
    obtain ⟨_, rfl, rfl⟩ | ⟨i, rh, _, hfree, hrh, rfl, rfl⟩ | ⟨i, e, _, _, rfl, rfl⟩ := callbackFlat_cases h
    · exact ⟨by rwa [List.append_nil], fun _ _ => rfl⟩
    · rw [List.append_nil]
      exact ⟨hs.spoiled hfree hrh, fun _ _ => rfl⟩
    · rw [liveOf_append]
      exact ⟨hs.registered i r, fun _ _ => rfl⟩
  | wake source px =>
    obtain ⟨hsame, hout⟩ := wake_cases h
    rw [hsame, liveOf_append]
    obtain rfl | ⟨i, rfl⟩ := hout
    · exact ⟨hs, fun _ _ => rfl⟩
    · exact ⟨hs, fun _ _ => rfl⟩
  | returns result address =>
    change s.returns result address = _ at h
    unfold ReplyFlat.returns at h
    split at h
    next i px _ =>
      obtain ⟨⟨s1, out1⟩, h, heq⟩ := Option.map_eq_some_iff.mp h
      cases heq
      have hsame : (if isReply px then s1.leave else { s1 with phase := .mapping }).fReplies = s1.fReplies := by
        split <;> rfl
      rw [hsame]
      obtain ⟨_, _, hgiven⟩ | ⟨_, rfl, rfl⟩ := processOutstanding_cases h
      · exact ⟨hgiven.kept hs, hgiven.orderly⟩
      · exact ⟨by rwa [List.append_nil], fun _ _ => rfl⟩
    next => cases h
  | mapped =>
    cases (Option.ite_none_right_eq_some.mp h).2
    exact ⟨by rwa [List.append_nil], fun _ _ => rfl⟩
  | cancel =>
    obtain ⟨hkept, horderly, _⟩ := cancelSlots_kept (Option.ite_none_right_eq_some.mp h).2 hs
    exact ⟨hkept, horderly⟩
  | state fState =>
    cases h
    exact ⟨by rwa [List.append_nil], fun _ _ => rfl⟩
  | others a =>
    obtain ⟨⟨e, events⟩, _, heq⟩ := Option.map_eq_some_iff.mp h
    cases heq
    rw [liveOf_append, foldl_endpoint]
    exact ⟨hs, orderly_endpoint events⟩

theorem handlers_kept {peer remote : EpId} (h : (replyMachine κ peer remote).Runs (fun _ _ => True) s log) :
    SlotsKept s.fReplies (liveOf log) := by
  refine h.invariant (fun s log => SlotsKept s.fReplies (liveOf log)) ⟨fun _ _ hi => (by cases hi), fun _ _ => rfl⟩ ?_
  exact Machine.keeps_of_act (f := fun s a => s.act a) (fun _ _ => rfl) (fun _ _ => rfl)
    fun s log a s' out hs _ hact => (act_kept hact hs).1

theorem isSome_reply_iff (hs : SlotsKept s.fReplies (liveOf log)) (i : SlotId) :
    (s.fReplies i).rReply.isSome = true ↔ ∃ r, liveOf log i = some r := by
  cases hi : liveOf log i with
  | none => simp [hs.free i hi]
  | some r => simp [hs.reply hi]

/-- The slot of a handler is found by the messages that are for it alone. -/
theorem findHandlerPeer_eq_iff (hs : SlotsKept s.fReplies (liveOf log)) (hlive : liveOf log i = some r) (name : Text) :
    s.findHandlerPeer r.recipient name = some i ↔ name = r.ptr ∧ (name = r.ptr → Foremost log i r) := by
  have hmatch : ∀ j q, liveOf log j = some q →
      (((s.fReplies j).rReply.isSome && (s.fReplies j).rRecipient = r.recipient &&
        (s.fReplies j).rMessage = some name) = true ↔ q.recipient = r.recipient ∧ q.ptr = name) := by
    intro j q hj
    simp [hs.used j q hj, Registration.slot]
  unfold ReplyFlat.findHandlerPeer
  rw [Fin.find?_eq_some_iff]
  constructor
  · rintro ⟨hi, hbefore⟩
    have hname := ((hmatch i r hlive).mp hi).2
    refine ⟨hname.symm, fun _ j hj q hq hsame => ?_⟩
    have hjtrue := (hmatch j q hq).mpr ⟨hsame.1, hsame.2.trans hname⟩
    rw [hbefore j hj] at hjtrue
    cases hjtrue
  · rintro ⟨rfl, hforemost⟩
    refine ⟨(hmatch i r hlive).mpr ⟨rfl, rfl⟩, fun j hj => ?_⟩
    rw [Bool.eq_false_iff]
    intro hjtrue
    have hsome : (s.fReplies j).rReply.isSome = true := by
      simp only [Bool.and_eq_true] at hjtrue
      exact hjtrue.1.1
    obtain ⟨q, hq⟩ := (isSome_reply_iff hs j).mp hsome
    exact hforemost rfl j hj q hq ((hmatch j q hq).mp hjtrue)

theorem argString_isSome {px : Words} (htype : isReply px = true ∨ isInform px = true) : argString px 0 ≠ none := by
  match px, htype with
  | [], htype => simp [isReply, isInform, isTypeParse] at htype
  | [] :: _, htype => simp [isReply, isInform, isTypeParse] at htype
  | (c :: rest) :: _, _ => simp [argString]

theorem isRequest_eq_false {px : Words} (htype : isReply px = true ∨ isInform px = true) : isRequest px = false := by
  simp only [isReply, isInform, isRequest, isTypeParse, decide_eq_true_eq, decide_eq_false_iff_not] at htype ⊢
  intro hrequest
  rw [hrequest] at htype
  exact absurd htype (by decide)

/-- A message of a recipient invokes the handler it finds. -/
theorem invoked_iff {source : Option EpId} {px : Words} (htype : isReply px = true ∨ isInform px = true)
    (h : s.wake source px = some (s', out)) :
    .invoked i px ∈ out ↔ s.operational = true ∧ s.findHandlerPeer source (nameOf px) = some i := by
  unfold ReplyFlat.wake at h
  split at h
  next => cases h
  split at h
  next hnot =>
    cases h
    have hdown := hnot.resolve_right (argString_isSome htype)
    exact ⟨fun hi => (by cases hi), fun hi => absurd hi.1 hdown⟩
  next hup =>
    rw [not_or, not_not] at hup
    rw [isRequest_eq_false htype, if_neg Bool.false_ne_true] at h
    split at h
    next j hj =>
      cases h
      rw [hj, List.mem_singleton]
      constructor
      · intro hi
        cases hi
        exact ⟨hup.1, rfl⟩
      · rintro ⟨_, hi⟩
        cases hi
        rfl
    next hj =>
      rw [hj]
      split at h
      all_goals
        cases h
        exact ⟨fun hi => (by cases hi), fun hi => (by cases hi.2)⟩

end

/-- Handlers and their messages; a handler that is searched for is found in its slot, however it
was registered. -/
theorem response_handlers {κ : Type} {peer remote : EpId} {s : ReplyFlat κ} {log : List (HandlerEvent κ)}
    (h : (replyMachine κ peer remote).Runs (fun _ _ => True) s log) {i : SlotId} {r : Registration κ}
    (hlive : liveOf log i = some r) :
    (∀ px s' out, isReply px = true ∨ isInform px = true → s.act (.wake r.recipient px) = some (s', out) →
      ((.invoked i px ∈ out ↔ nameOf px = r.ptr ∧ r.handles px = true) ↔
        (nameOf px = r.ptr → (r.handles px = true ↔ s.operational = true ∧ Foremost log i r)))) ∧
    (∀ px result address s' out, s.phase = .calling i px → isReply px = true → r.handles px = true →
      s.act (.returns result address) = some (s', out) →
      (.retired i ∈ out ∧ (dropsOf i out).Perm r.slot.parts ↔ retires result = true)) ∧
    (∀ a s' out, s.act a = some (s', out) → .retired i ∉ out → dropsOf i out = []) := by
  have hs := handlers_kept h
  refine ⟨fun px s' out htype hact => ?_, fun px result address s' out hphase hreply _ hact => ?_,
    fun a s' out hact => (act_kept hact hs).2 i⟩
  · rw [invoked_iff htype hact, findHandlerPeer_eq_iff hs hlive]
    by_cases hname : nameOf px = r.ptr
    · simp only [hname, true_and, forall_const]
      exact Iff.comm
    · simp only [hname, false_and, and_false, false_implies]
  · change s.returns result address = _ at hact
    unfold ReplyFlat.returns at hact
    rw [hphase] at hact
    obtain ⟨⟨s1, out1⟩, hout, heq⟩ := Option.map_eq_some_iff.mp hact
    cases heq
    obtain ⟨_, hretires, hgiven⟩ | ⟨hnot, _, rfl⟩ := processOutstanding_cases hout
    · have hdrops := hgiven.drops
      rw [hs.used i r hlive] at hdrops
      exact iff_of_true ⟨hgiven.said, hdrops⟩ hretires
    · rw [hnot hreply]
      exact ⟨fun hi => (by cases hi.1), fun hi => (by cases hi)⟩

def createsEndpoint (ep : EpId) : ReplyAction Unit := .others (.call (.create true false ep))

/-- What a client's request to relay `status` to the peer `2` leaves behind. -/
def statusHandler : Registration Unit :=
  ⟨some 1, some [textOf "?relay", textOf "b", textOf "status"], some 2, (), textOf "status", handleReplies⟩

def statusActions : List (ReplyAction Unit) :=
  [createsEndpoint 0, createsEndpoint 1, createsEndpoint 2,
    .wake (some 1) [textOf "?relay", textOf "b", textOf "status"], .callback statusHandler, .mapped]

theorem response_handlers_reply : ∃ s log, (replyMachine Unit 0 1).Runs (fun _ _ => True) s log ∧
    ∃ s' out, s.act (.wake (some 2) [textOf "!status", textOf "ok"]) = some (s', out) ∧
      .invoked 3 [textOf "!status", textOf "ok"] ∈ out ∧
      ∃ s'' more, s'.act (.returns (some .own) 0) = some (s'', more) ∧ .retired 3 ∈ more ∧
        (dropsOf 3 more).Perm statusHandler.slot.parts := by
  have hrun := Machine.Runs.exec (.start (m := replyMachine Unit 0 1)) statusActions rfl (Machine.meets_true ..)
  have hcalled := Machine.Runs.exec (.start (m := replyMachine Unit 0 1))
    (statusActions ++ [.wake (some 2) [textOf "!status", textOf "ok"]]) rfl (Machine.meets_true ..)
  have hfirst := (response_handlers hrun (i := 3) (r := statusHandler) rfl).1
    [textOf "!status", textOf "ok"] _ _ (.inl rfl) rfl
  have hlast := (response_handlers hcalled (i := 3) (r := statusHandler) rfl).2.1
    [textOf "!status", textOf "ok"] (some .own) 0 _ _ rfl rfl rfl rfl
  refine ⟨_, _, hrun, _, _, rfl, (hfirst.mpr fun _ => iff_of_true rfl ⟨rfl, fun j hj q hq => ?_⟩).mpr ⟨rfl, rfl⟩,
    _, _, rfl, hlast.mpr rfl⟩
  have hbefore : update (fun _ => none) 3 (some statusHandler) j = some q := hq
  rw [update_of_ne hj.ne] at hbefore
  cases hbefore

/-- The handler is for replies alone, and called with an inform. -/
theorem handler_misled : ¬ ∀ (s : ReplyFlat Unit) log, (replyMachine Unit 0 1).Runs (fun _ _ => True) s log →
    ∀ i r, liveOf log i = some r → ∀ px s' out, isReply px = true ∨ isInform px = true →
      s.act (.wake r.recipient px) = some (s', out) →
      (.invoked i px ∈ out ↔ nameOf px = r.ptr ∧ r.handles px = true) := by
  intro h
  have hrun := Machine.Runs.exec (.start (m := replyMachine Unit 0 1)) statusActions rfl (Machine.meets_true ..)
  have hinvoked := (h _ _ hrun 3 statusHandler rfl [textOf "#status", textOf "half"] _ _ (.inr rfl) rfl).mp
    (List.mem_singleton_self _)
  exact absurd hinvoked.2 (by decide)

end Katcp
