import Katcp.EndpointTurn
import Katcp.GroupData
import Katcp.ReplyHandlers

namespace Katcp

/-- A flat that relays requests, among the groups and the flats in them, each with its peer endpoint. -/
structure RelayFlat (κ : Type) where
  groups : Groups
  fx : FlatId
  peerOf : FlatId → Option EpId
  installInfo : Bool
  flat : ReplyFlat κ

namespace RelayFlat

variable {κ : Type} (s : RelayFlat κ)

/-- The end that the relay commands have in common: the request is sent, then its handler registered. -/
def relayTo (call : κ) (args : Words) (target : Option EpId) (px : Words) (string : Text) (flags : Nat)
    (address : MsgId) : Option (KatcpResult × RelayFlat κ × List (HandlerEvent κ)) :=
  target.bind fun ep =>
  (s.flat.endpoints.sendMessage s.flat.fPeer ep px true address).bind fun (r, e, sent) =>
    if r < 0 then some (.done .fail, { s with flat := { s.flat with endpoints := e } }, sent.map .endpoint)
    else
      (ReplyFlat.callbackFlat { s.flat with endpoints := e }
        ⟨s.flat.fCurrentEndpoint, some args, some ep, call, string, flags⟩).map fun (status, flat, out) =>
          (if status ≠ 0 then .done .fail else .own, { s with flat := flat }, sent.map .endpoint ++ out)

/-- `relay_generic_group_cmd_katcp` -/
def relayGeneric (call : κ) (args : Words) (address : MsgId) :
    Option (KatcpResult × RelayFlat κ × List (HandlerEvent κ)) :=
  if args.length < 2 then some (.done .invalid, s, [])
  else
    match argString args 1, argString args 2 with
    | some name, some cmd =>
      match s.groups.findName (some s.fx) none (some name) false with
      | none => some (.done .fail, s, [])
      | some fy =>
        let ptr := if cmd.head? = some (byte '?') then cmd.tail else cmd
        s.relayTo call args (if fy = s.fx then s.flat.fRemote else s.peerOf fy) ((byte '?' :: ptr) :: args.drop 3) ptr
          (handleReplies ||| if s.installInfo then handleInforms else 0) address
    | _, _ => some (.done .invalid, s, [])

/-- `perform_forward_symbolic_group_cmd_katcp`, for a peer, with the message generated for it. -/
def performForward (call : κ) (peer : Text) (generated : Option Words) (args : Words) (address : MsgId) :
    Option (KatcpResult × RelayFlat κ × List (HandlerEvent κ)) :=
  if argString args 0 = none then some (.done .fail, s, [])
  else
    match s.groups.findName (some s.fx) none (some peer) false with
    | none => some (.done .fail, s, [])
    | some fy =>
      if fy = s.fx then some (.done .fail, s, [])
      else
        match generated with
        | none => some (.done .fail, s, [])
        | some px => s.relayTo call args (s.peerOf fy) px (textOf "relay") (handleReplies ||| handleInforms) address

/-- The endpoint that a request is to be relayed to. -/
def genericTarget (args : Words) : Option EpId :=
  (argString args 1).bind fun name => (argString args 2).bind fun _ =>
  (s.groups.findName (some s.fx) none (some name) false).bind fun fy =>
    if fy = s.fx then s.flat.fRemote else s.peerOf fy

def forwardTarget (peer : Text) (generated : Option Words) (args : Words) : Option EpId :=
  (argString args 0).bind fun _ => generated.bind fun _ =>
  (s.groups.findName (some s.fx) none (some peer) false).bind fun fy =>
    if fy = s.fx then none else s.peerOf fy

end RelayFlat

def KatcpResult.fails (result : KatcpResult) : Bool := result = .done .fail || result = .done .invalid

/-- Nothing is queued anywhere. -/
def SendsNothing {κ : Type} (out : List (HandlerEvent κ)) : Prop := ∀ msg, .endpoint (.queued msg) ∉ out

section

variable {κ : Type} {s s' : RelayFlat κ} {e e' : Endpoints} {out : List EndpointEvent} {r : Int}

theorem onEndpoint_receives {ep : EpId} {f : Endpoint → Endpoint} (hf : ∀ x, (f x).eRx = x.eRx)
    (h : e.onEndpoint ep f = some e') (x : EpId) : e'.receives x = e.receives x := by
  obtain ⟨old, hold, rfl⟩ := Option.map_eq_some_iff.mp h
  by_cases hx : x = ep
  · subst hx
    simp [Endpoints.receives, Endpoints.station, Endpoints.put, hold, hf]
  · simp [Endpoints.receives, Endpoints.station, Endpoints.put, hx]

theorem referenceSender_receives {source : Option EpId} (h : e.referenceSender source = some e') (x : EpId) :
    e'.receives x = e.receives x := by
  cases source with
  | none =>
    cases h
    rfl
  | some f =>
    exact onEndpoint_receives (f := fun e => { e with eRefcount := e.eRefcount + 1 }) (fun _ => rfl) h x

theorem addTailGueue_status {α : Type} {g g' : Gueue α} {datum : α} (h : addTailGueue g (some datum) = some (r, g')) :
    r = 0 := by
  unfold addTailGueue at h
  dsimp only at h
  split at h
  next =>
    split at h
    next => cases h
    next => cases Option.some.inj h; rfl
  next => cases Option.some.inj h; rfl

/-- A message is queued if its target receives. -/
theorem sendMessage_queued {source : Option EpId} {target : EpId} {px : Words} {ack : Bool} {address : MsgId}
    (h : e.sendMessage source target px ack address = some (r, e', out)) :
    (e.receives target = true ∧ r = 0 ∧ ∃ msg, out = [.queued msg]) ∨
      (e.receives target = false ∧ r = -1 ∧ out = []) := by
  unfold Endpoints.sendMessage at h
  obtain ⟨_, h⟩ := Option.ite_none_left_eq_some.mp h
  obtain ⟨_, h⟩ := Option.ite_none_left_eq_some.mp h
  obtain ⟨⟨msg, e1⟩, hcreate, h⟩ := Option.bind_eq_some_iff.mp h
  obtain ⟨⟨r1, e2⟩, hqueue, h⟩ := Option.bind_eq_some_iff.mp h
  obtain ⟨_, hcreate⟩ := Option.ite_none_left_eq_some.mp hcreate
  obtain ⟨_, hcreate⟩ := Option.ite_none_left_eq_some.mp hcreate
  obtain ⟨e3, hsource, hcreate⟩ := Option.bind_eq_some_iff.mp hcreate
  obtain ⟨e4, htarget, hcreate⟩ := Option.map_eq_some_iff.mp hcreate
  cases hcreate
  have hheld : e3.referenceSender (some target) = some e4 := htarget
  have hrx : e4.receives target = e.receives target :=
    (referenceSender_receives hheld target).trans (referenceSender_receives hsource target)
  obtain ⟨x, hx, hqueue⟩ := Option.bind_eq_some_iff.mp hqueue
  have hstation : e4.receives target = x.eRx := by
    have hx' : e4.store target = some x := hx
    simp [Endpoints.receives, Endpoints.station, hx']
  rw [← hrx, hstation]
  cases hup : x.eRx with
  | false =>
    rw [hup, if_neg Bool.false_ne_true] at hqueue
    cases hqueue
    dsimp only at h
    rw [if_pos (by decide)] at h
    obtain ⟨e5, _, h⟩ := Option.map_eq_some_iff.mp h
    cases h
    exact .inr ⟨rfl, rfl, rfl⟩
  | true =>
    rw [hup, if_pos rfl] at hqueue
    obtain ⟨⟨r2, g⟩, htail, hqueue⟩ := Option.map_eq_some_iff.mp hqueue
    cases addTailGueue_status htail
    cases hqueue
    refine .inl ⟨rfl, ?_⟩
    dsimp only at h
    rw [if_neg (by decide)] at h
    split at h
    next =>
      obtain ⟨f, _, h⟩ := Option.bind_eq_some_iff.mp h
      obtain ⟨e5, _, h⟩ := Option.map_eq_some_iff.mp h
      cases h
      exact ⟨rfl, _, rfl⟩
    next =>
      cases h
      exact ⟨rfl, _, rfl⟩

/-- A handler with flags is registered exactly if there is a free slot. -/
theorem callbackFlat_status {flat flat' : ReplyFlat κ} {reg : Registration κ} {status : Int}
    {events : List (HandlerEvent κ)} (hflags : reg.actual ≠ 0) (h : flat.callbackFlat reg = some (status, flat', events)) :
    (status = 0 ↔ flat.freeSlot.isSome = true) ∧ SendsNothing events := by
  unfold ReplyFlat.callbackFlat at h
  split at h
  next => cases h
  split at h
  next => cases h
  split at h
  next hnone =>
    cases h
    rw [hnone]
    exact ⟨by decide, fun _ hq => by cases hq⟩
  next i hi =>
    rw [hi]
    split at h
    next => cases h
    obtain ⟨e1, _, h⟩ := Option.bind_eq_some_iff.mp h
    obtain ⟨e2, _, h⟩ := Option.map_eq_some_iff.mp h
    cases h
    exact ⟨iff_of_true rfl rfl, fun _ hq => by simp at hq⟩

theorem actual_ne_zero {reg : Registration κ} (hflags : reg.flags ≠ 0) : reg.actual ≠ 0 := by
  unfold Registration.actual
  split
  next => rwa [if_pos hflags]
  next => exact hflags

variable {call : κ} {args px : Words} {target : Option EpId} {string : Text} {flags : Nat} {address : MsgId}
  {result : KatcpResult} {events : List (HandlerEvent κ)}

theorem relayTo_silent (hflags : flags ≠ 0)
    (h : s.relayTo call args target px string flags address = some (result, s', events)) :
    (result.fails = true → SendsNothing events) ↔
      s.flat.freeSlot.isSome = true ∨ target.any s.flat.endpoints.receives = false := by
  unfold RelayFlat.relayTo at h
  obtain ⟨ep, htarget, h⟩ := Option.bind_eq_some_iff.mp h
  obtain ⟨⟨r, e, sent⟩, hsend, h⟩ := Option.bind_eq_some_iff.mp h
  dsimp only at h
  rw [htarget, Option.any_some]
  obtain ⟨hrx, rfl, msg, rfl⟩ | ⟨hrx, rfl, rfl⟩ := sendMessage_queued hsend
  · rw [if_neg (by decide)] at h
    obtain ⟨⟨status, flat, out⟩, hcallback, h⟩ := Option.map_eq_some_iff.mp h
    obtain ⟨hstatus, hout⟩ := callbackFlat_status (actual_ne_zero hflags) hcallback
    have hfree : status = 0 ↔ s.flat.freeSlot.isSome = true := hstatus
    cases h
    rw [← hfree, hrx]
    by_cases hzero : status = 0
    · rw [if_neg (not_not.mpr hzero)]
      exact iff_of_true (fun hfails => by cases hfails) (.inl hzero)
    · rw [if_pos hzero]
      refine iff_of_false (fun hsilent => ?_) (not_or.mpr ⟨hzero, fun hdeaf => by cases hdeaf⟩)
      exact hsilent rfl msg (List.mem_cons_self ..)
  · rw [if_pos (by decide)] at h
    cases h
    exact iff_of_true (fun _ _ hq => by cases hq) (.inr hrx)

theorem silent_nil : SendsNothing ([] : List (HandlerEvent κ)) := fun _ hq => by cases hq

theorem relayGeneric_silent (h : s.relayGeneric call args address = some (result, s', events)) :
    (result.fails = true → SendsNothing events) ↔
      s.flat.freeSlot.isSome = true ∨ (s.genericTarget args).any s.flat.endpoints.receives = false := by
  unfold RelayFlat.relayGeneric at h
  unfold RelayFlat.genericTarget
  split at h
  next hfew =>
    cases h
    have hname : argString args 1 = none := by
      simp [argString, List.getElem?_eq_none (Nat.le_of_lt_succ hfew)]
    rw [hname]
    exact iff_of_true (fun _ => silent_nil) (.inr rfl)
  split at h
  next name cmd hname hcmd =>
    rw [hname, hcmd, Option.bind_some, Option.bind_some]
    split at h
    next hnone =>
      cases h
      rw [hnone]
      exact iff_of_true (fun _ => silent_nil) (.inr rfl)
    next fy hfy =>
      rw [hfy, Option.bind_some]
      refine relayTo_silent ?_ h
      split <;> decide
  next hmissing =>
    cases h
    refine iff_of_true (fun _ => silent_nil) (.inr ?_)
    cases hname : argString args 1 with
    | none => rfl
    | some name =>
      cases hcmd : argString args 2 with
      | none => rfl
      | some cmd => exact absurd hcmd (hmissing name cmd hname)

theorem performForward_silent {peer : Text} {generated : Option Words}
    (h : s.performForward call peer generated args address = some (result, s', events)) :
    (result.fails = true → SendsNothing events) ↔
      s.flat.freeSlot.isSome = true ∨ (s.forwardTarget peer generated args).any s.flat.endpoints.receives = false := by
  unfold RelayFlat.performForward at h
  unfold RelayFlat.forwardTarget
  split at h
  next hnone =>
    cases h
    rw [hnone]
    exact iff_of_true (fun _ => silent_nil) (.inr rfl)
  next hsome =>
  obtain ⟨req, hreq⟩ := Option.ne_none_iff_exists'.mp hsome
  rw [hreq, Option.bind_some]
  split at h
  next hnone =>
    cases h
    rw [hnone]
    exact iff_of_true (fun _ => silent_nil) (.inr (by cases generated <;> rfl))
  next fy hfy =>
  rw [hfy, Option.bind_some]
  split at h
  next hself =>
    cases h
    rw [if_pos hself]
    exact iff_of_true (fun _ => silent_nil) (.inr (by cases generated <;> rfl))
  next hother =>
  rw [if_neg hother]
  split at h
  next =>
    cases h
    exact iff_of_true (fun _ => silent_nil) (.inr rfl)
  next px => exact relayTo_silent (by decide) h

end

/-- What the two relay commands do of themselves, whatever slots are taken. -/
theorem relay_refused_silent {κ : Type} (s : RelayFlat κ) (call : κ) (args : Words) (address : MsgId) :
    (∀ result s' out, s.relayGeneric call args address = some (result, s', out) →
      ((result.fails = true → SendsNothing out) ↔
        s.flat.freeSlot.isSome = true ∨ (s.genericTarget args).any s.flat.endpoints.receives = false)) ∧
    (∀ peer generated result s' out, s.performForward call peer generated args address = some (result, s', out) →
      ((result.fails = true → SendsNothing out) ↔
        s.flat.freeSlot.isSome = true ∨
          (s.forwardTarget peer generated args).any s.flat.endpoints.receives = false)) :=
  ⟨fun _ _ _ h => relayGeneric_silent h, fun _ _ _ _ _ h => performForward_silent h⟩

def relayWords : Words := [textOf "?relay", textOf "b", textOf "status"]

/-- The peer `ep` of another flat asks for a request to be relayed to the peer `6`. -/
def relaysStatus (ep : EpId) : List (ReplyAction Unit) :=
  [.wake (some ep) relayWords,
    .callback ⟨some ep, some relayWords, some 6, (), textOf "status", handleReplies⟩, .mapped]

/-- Four flats wait for the replies of a fifth, and a client asks for one more. -/
def crowdedActions : List (ReplyAction Unit) :=
  (List.range 7).map createsEndpoint ++ [2, 3, 4, 5].flatMap relaysStatus ++ [.wake (some 1) relayWords]

def crowdedFlat : ReplyFlat Unit :=
  (((replyMachine Unit 0 1).exec (createReplyFlat Unit 0 1) crowdedActions).map Prod.fst).getD (createReplyFlat Unit 0 1)

def crowdedGroups : Groups where
  sGroups := ⟨[some 0], 1⟩
  sFallback := some 0
  groups := fun _ => some ⟨none, ⟨[some 0, some 1], 2⟩, .all, 1, false⟩
  flats := fun fx => some ⟨some (textOf (if fx = 0 then "a" else "b")), some 0, .all, .up, false⟩
  listeners := []

def crowded : RelayFlat Unit := ⟨crowdedGroups, 0, fun fx => if fx = 1 then some 6 else some 0, true, crowdedFlat⟩

theorem relay_refused_unknown : ∃ s' out,
    crowded.relayGeneric () [textOf "?relay", textOf "c", textOf "status"] 0 = some (.done .fail, s', out) ∧
      SendsNothing out :=
  ⟨_, _, rfl, ((relay_refused_silent crowded () [textOf "?relay", textOf "c", textOf "status"] 0).1 _ _ _ rfl).mpr
    (.inr rfl) rfl⟩

theorem relay_refused_queues : ¬ ∀ (s : RelayFlat Unit) args address result s' out,
    s.relayGeneric () args address = some (result, s', out) → result.fails = true → SendsNothing out := by
  intro h
  exact h crowded relayWords 0 _ _ _ rfl rfl _ (List.mem_singleton_self _)

end Katcp
