import Katcp.ReplyRelay

namespace Katcp

open Function

/-- A flat that relays requests. The callback in a slot is the number of the request that it was registered for, and
the requests that the remote has not answered are kept with their names, the oldest first. -/
structure RelayDesk where
  relay : RelayFlat Nat
  retainInfo : Bool
  asked : List (Nat × Text)
  fresh : Nat

/-- The command that relays a request. -/
inductive RelayBy where
  | generic
  | forward (peer : Text) (generated : Option Words)

/-- What a handler passes on to the issuer of its request. -/
structure Passed where
  request : Nat
  issuer : Option EpId
  words : Words
  deriving DecidableEq

inductive RelayEvent where
  | sent (n : Nat) (target : EpId) (px : Words) (issuer : Option EpId) (args : Words) (heard : Option Text)
  | heard (source : Option EpId) (px : Words) (passed : Option Passed)
  | queued (msg : EpMessage)
  | cancelled
  | turned (fState : FlatState)
  deriving DecidableEq

inductive RelayInput where
  | request (source : Option EpId) (args : Words) (how : RelayBy) (address : MsgId)
  | hears (source : Option EpId) (px : Words) (address : MsgId)
  | cancel
  | state (fState : FlatState)
  | others (a : EndpointAction)
  | regroup (groups : Groups) (peerOf : FlatId → Option EpId)

def RelayFlat.relays (s : RelayFlat Nat) (how : RelayBy) (n : Nat) (args : Words) (address : MsgId) :
    Option (KatcpResult × RelayFlat Nat × List (HandlerEvent Nat)) :=
  match how with
  | .generic => s.relayGeneric n args address
  | .forward peer generated => s.performForward n peer generated args address

def queuedIn (out : List EndpointEvent) : Option EpMessage :=
  out.findSome? fun e =>
    match e with
    | .queued msg => some msg
    | _ => none

def endpointsIn (out : List (HandlerEvent Nat)) : List EndpointEvent :=
  out.filterMap fun e =>
    match e with
    | .endpoint e => some e
    | _ => none

def heardIn (out : List (HandlerEvent Nat)) : Option Text :=
  out.findSome? fun e =>
    match e with
    | .registered _ r => some r.ptr
    | _ => none

/-- The message that goes to the issuer: the arguments of what was received, under the name of its own request. -/
def relayedReply (retainInfo : Bool) (initial px : Words) : Words :=
  if isInform px then if retainInfo then px else (byte '#' :: nameOf initial) :: px.tail
  else (byte '!' :: nameOf initial) :: if px.length > 1 then px.tail else [codeToName .fail]

/-- `complete_relay_generic_group_cmd_katcp`, and what is left to do behind it. -/
def ReplyFlat.completeRelay (f : ReplyFlat Nat) (retainInfo : Bool) (i : SlotId) (px : Words) (address : MsgId) :
    Option (ReplyFlat Nat × Passed × Option EpMessage) :=
  (f.fReplies i).rReply.bind fun n => (f.fReplies i).rInitial.bind fun initial =>
    let words := relayedReply retainInfo initial px
    let sent : Option (Endpoints × Option EpMessage) :=
      match f.fCurrentEndpoint with
      | none => some (f.endpoints, none)
      | some issuer =>
        (f.endpoints.sendMessage f.fPeer issuer words false address).map fun (_, e, out) => (e, queuedIn out)
    sent.bind fun (e, msg) => (ReplyFlat.returns { f with endpoints := e } (some .own) address).map fun (left, _) =>
      (left.leave, ⟨n, f.fCurrentEndpoint, words⟩, msg)

namespace RelayDesk

variable (s : RelayDesk)

def setFlat (flat : ReplyFlat Nat) : RelayDesk := { s with relay := { s.relay with flat := flat } }

/-- A request is woken with, and relayed by its command. -/
def request (source : Option EpId) (args : Words) (how : RelayBy) (address : MsgId) :
    Option (RelayDesk × List RelayEvent) :=
  (s.relay.flat.wake source args).bind fun (woken, _) =>
    if woken.phase = .mapping then
      (RelayFlat.relays { s.relay with flat := woken } how s.fresh args address).map fun (_, relay, out) =>
        let sent := (queuedIn (endpointsIn out)).toList
        let asks := sent.filter fun msg => some msg.mTo = s.relay.flat.fRemote
        ({ s with
            relay := { relay with flat := relay.flat.leave }
            asked := s.asked ++ asks.map fun msg => (s.fresh, nameOf msg.mParse)
            fresh := s.fresh + 1 },
          sent.map fun msg => .sent s.fresh msg.mTo msg.mParse source args (heardIn out))
    else some (s, [])

/-- The requests that the remote has still to answer behind a message. -/
def leftBy (source : Option EpId) (px : Words) : List (Nat × Text) :=
  if source = s.relay.flat.fRemote ∧ isReply px = true then s.asked.tail else s.asked

/-- A reply or an inform; the remote answers its requests in order. -/
def hears (source : Option EpId) (px : Words) (address : MsgId) : Option (RelayDesk × List RelayEvent) :=
  if source = s.relay.flat.fRemote ∧ isReply px = true ∧ s.asked.head?.map Prod.snd ≠ some (nameOf px) then none
  else
    (s.relay.flat.wake source px).bind fun (woken, _) =>
      match woken.phase with
      | .calling i _ => (woken.completeRelay s.retainInfo i px address).map fun (flat, passed, msg) =>
          ({ s.setFlat flat with asked := s.leftBy source px },
            .heard source px (some passed) :: msg.toList.map .queued)
      | _ => some ({ s.setFlat woken.leave with asked := s.leftBy source px }, [.heard source px none])

def act (a : RelayInput) : Option (RelayDesk × List RelayEvent) :=
  match a with
  | .request source args how address => if isRequest args then s.request source args how address else none
  | .hears source px address => if isReply px || isInform px then s.hears source px address else none
  | .cancel => s.relay.flat.cancelFlat.map fun (flat, _) => (s.setFlat flat, [.cancelled])
  | .state fState => some (s.setFlat { s.relay.flat with fState := fState }, [.turned fState])
  | .others a => (s.relay.flat.endpoints.act a).map fun (e, _) => (s.setFlat { s.relay.flat with endpoints := e }, [])
  | .regroup groups peerOf => some ({ s with relay := { s.relay with groups := groups, peerOf := peerOf } }, [])

end RelayDesk

/-- A flat with a peer and a remote endpoint, some flags, and nothing relayed yet. -/
def createRelayDesk (peer remote : EpId) (groups : Groups) (fx : FlatId) (peerOf : FlatId → Option EpId)
    (installInfo retainInfo : Bool) : RelayDesk :=
  ⟨⟨groups, fx, peerOf, installInfo, createReplyFlat Nat peer remote⟩, retainInfo, [], 0⟩

def relayDeskMachine (start : RelayDesk) : Machine RelayDesk RelayInput RelayEvent where
  start := start
  step s a := (s.act a).map Prod.fst
  emits s a := ((s.act a).map Prod.snd).getD []

/-- A handler as it was registered for a request. -/
structure RelayHandler where
  target : EpId
  issuer : Option EpId
  args : Words
  name : Text
  deriving DecidableEq

namespace RelayEvent

def handler (n : Nat) (x : Option RelayHandler) : RelayEvent → Option RelayHandler
  | .sent k target _ issuer args told => if k = n then told.map fun name => ⟨target, issuer, args, name⟩ else x
  | .heard _ px passed => if isReply px = true ∧ passed.map Passed.request = some n then none else x
  | .cancelled => none
  | .queued _ | .turned _ => x

def asked (remote : EpId) (xs : List (Nat × Text)) : RelayEvent → List (Nat × Text)
  | .sent k target px _ _ _ => if target = remote then xs ++ [(k, nameOf px)] else xs
  | .heard source px _ => if source = some remote ∧ isReply px = true then xs.tail else xs
  | _ => xs

def state (x : FlatState) : RelayEvent → FlatState
  | .turned fState => fState
  | _ => x

end RelayEvent

/-- The handler of a request, as long as there is one. -/
def handlerOf (n : Nat) (log : List RelayEvent) : Option RelayHandler := log.foldl (RelayEvent.handler n) none

/-- The requests that the remote has not answered. -/
def askedOf (remote : EpId) (log : List RelayEvent) : List (Nat × Text) := log.foldl (RelayEvent.asked remote) []

def stateOf (log : List RelayEvent) : FlatState := log.foldl RelayEvent.state .up

/-- What the oldest request that the remote has not answered is told of a message under its name. -/
def ownPassed (retainInfo : Bool) (before : List RelayEvent) (n : Nat) (px : Words) : Option Passed :=
  if stateOf before ∈ [FlatState.up, .finishing, .ending] then
    ((handlerOf n before).filter fun h => h.name = nameOf px).map fun h =>
      ⟨n, h.issuer, relayedReply retainInfo h.args px⟩
  else none

/-- What the remote says about its oldest request is passed on to the issuer of that request, and nobody is told
anything else. -/
def RelayFits (remote : EpId) (retainInfo : Bool) (before : List RelayEvent) : RelayEvent → Prop
  | .heard source px passed => source = some remote → ∀ n,
      (askedOf remote before).head? = some (n, nameOf px) → passed = ownPassed retainInfo before n px
  | .queued msg => ∃ source px passed, before.getLast? = some (.heard source px (some passed)) ∧
      passed.issuer = some msg.mTo ∧ passed.words = msg.mParse
  | _ => True

/-- A request that is sent to the remote shares no name with another one: none that is unanswered has the name that
it is waited for by, and none is waited for by its name. -/
def RelayEvent.ApartIn (s : RelayDesk) : RelayEvent → Prop
  | .sent _ target px _ _ told => some target = s.relay.flat.fRemote → (∀ e ∈ s.asked, told ≠ some e.2) ∧
      ∀ i, (s.relay.flat.fReplies i).rReply.isSome = true → (s.relay.flat.fReplies i).rRecipient = some target →
        (s.relay.flat.fReplies i).rMessage ≠ some (nameOf px)
  | _ => True

instance (s : RelayDesk) (e : RelayEvent) : Decidable (e.ApartIn s) := by
  cases e <;> unfold RelayEvent.ApartIn <;> infer_instance

def RelayDesk.Apart (s : RelayDesk) (a : RelayInput) : Prop := ∀ e ∈ ((s.act a).map Prod.snd).getD [], e.ApartIn s

instance (s : RelayDesk) (a : RelayInput) : Decidable (s.Apart a) := inferInstanceAs (Decidable (∀ _ ∈ _, _))

/-- The slot of a handler. -/
structure ReplySlot.For (rh : ReplySlot Nat) (n : Nat) (x : RelayHandler) : Prop where
  reply : rh.rReply = some n
  message : rh.rMessage = some x.name
  recipient : rh.rRecipient = some x.target
  issuer : rh.rIssuer = x.issuer
  initial : rh.rInitial = some x.args

/-- The slots of the handlers. -/
structure Slotted (slots : SlotId → ReplySlot Nat) (handlers : Nat → Option RelayHandler) : Prop where
  placed : ∀ n x, handlers n = some x ↔ ∃ i, (slots i).For n x
  full : ∀ i n, (slots i).rReply = some n → ∃ x, (slots i).For n x
  alone : ∀ i j n, (slots i).rReply = some n → (slots j).rReply = some n → i = j

section

variable {rh : ReplySlot Nat} {slots : SlotId → ReplySlot Nat} {handlers : Nat → Option RelayHandler} {i j : SlotId}
  {n k : Nat} {x y : RelayHandler} {f f' : ReplyFlat Nat} {source : Option EpId} {px args : Words} {remote : EpId}
  {name : Text} {address : MsgId} {s s' : RelayDesk} {log out : List RelayEvent} {retainInfo : Bool}

theorem ReplySlot.For.unique (h : rh.For n x) (hk : rh.For k y) : n = k ∧ x = y := by
  refine ⟨Option.some.inj (h.reply.symm.trans hk.reply), ?_⟩
  obtain ⟨target, issuer, args, name⟩ := x
  obtain ⟨target', issuer', args', name'⟩ := y
  have htarget : target = target' := Option.some.inj (h.recipient.symm.trans hk.recipient)
  have hissuer : issuer = issuer' := h.issuer.symm.trans hk.issuer
  have hargs : args = args' := Option.some.inj (h.initial.symm.trans hk.initial)
  have hname : name = name' := Option.some.inj (h.message.symm.trans hk.message)
  rw [htarget, hissuer, hargs, hname]

namespace Slotted

theorem empty : Slotted (fun _ => .empty) fun _ => none := by
  refine ⟨fun n x => ⟨fun h => (by cases h), fun h => ?_⟩, fun i n h => ?_, fun i j n h => ?_⟩
  · obtain ⟨i, h⟩ := h
    cases h.reply
  · cases h
  · cases h

/-- A handler is registered in a free slot. -/
theorem add (hp : Slotted slots handlers) (hfree : (slots i).rReply = none) (hnew : handlers n = none)
    (hrh : rh.For n x) :
    Slotted (update slots i rh) (update handlers n (some x)) := by
  have hother : ∀ j, (slots j).rReply ≠ some n := by
    intro j hj
    obtain ⟨y, hy⟩ := hp.full j n hj
    have hold := (hp.placed n y).mpr ⟨j, hy⟩
    rw [hnew] at hold
    cases hold
  refine ⟨fun k y => ?_, fun j k hj => ?_, fun j j' k hj hj' => ?_⟩
  · rcases eq_or_ne k n with rfl | hk
    · rw [update_self]
      constructor
      · intro h
        cases h
        exact ⟨i, by rwa [update_self]⟩
      · rintro ⟨j, hj⟩
        rcases eq_or_ne j i with rfl | hne
        · rw [update_self] at hj
          rw [(hrh.unique hj).2]
        · rw [update_of_ne hne] at hj
          exact absurd hj.reply (hother j)
    · rw [update_of_ne hk, hp.placed k y]
      constructor
      · rintro ⟨j, hj⟩
        refine ⟨j, ?_⟩
        rwa [update_of_ne]
        rintro rfl
        have hsome := hj.reply
        rw [hfree] at hsome
        cases hsome
      · rintro ⟨j, hj⟩
        rcases eq_or_ne j i with rfl | hne
        · rw [update_self] at hj
          exact absurd (hrh.unique hj).1.symm hk
        · rw [update_of_ne hne] at hj
          exact ⟨j, hj⟩
  · rcases eq_or_ne j i with rfl | hne
    · rw [update_self] at hj ⊢
      cases hrh.reply.symm.trans hj
      exact ⟨x, hrh⟩
    · rw [update_of_ne hne] at hj ⊢
      exact hp.full j k hj
  · rcases eq_or_ne j i with rfl | hne
    · rw [update_self, hrh.reply] at hj
      cases hj
      by_contra hne
      rw [update_of_ne (Ne.symm hne)] at hj'
      exact hother j' hj'
    · rw [update_of_ne hne] at hj
      rcases eq_or_ne j' i with rfl | hne'
      · rw [update_self, hrh.reply] at hj'
        cases hj'
        exact absurd hj (hother j)
      · rw [update_of_ne hne'] at hj'
        exact hp.alone j j' k hj hj'

/-- The handler in a slot is given up. -/
theorem drop (hp : Slotted slots handlers) (hi : (slots i).rReply = some n) (hrh : rh.rReply = none) :
    Slotted (update slots i rh) (update handlers n none) := by
  have hkept : ∀ j k, (update slots i rh j).rReply = some k → j ≠ i ∧ (slots j).rReply = some k := by
    intro j k hj
    rcases eq_or_ne j i with rfl | hne
    · rw [update_self, hrh] at hj
      cases hj
    · rw [update_of_ne hne] at hj
      exact ⟨hne, hj⟩
  refine ⟨fun k y => ?_, fun j k hj => ?_,
    fun j j' k hj hj' => hp.alone j j' k (hkept j k hj).2 (hkept j' k hj').2⟩
  · rcases eq_or_ne k n with rfl | hk
    · rw [update_self]
      refine ⟨fun h => (by cases h), fun h => ?_⟩
      obtain ⟨j, hj⟩ := h
      rcases eq_or_ne j i with rfl | hne
      · rw [update_self] at hj
        cases hrh.symm.trans hj.reply
      · rw [update_of_ne hne] at hj
        exact absurd (hp.alone j i k hj.reply hi) hne
    · rw [update_of_ne hk, hp.placed k y]
      constructor
      · rintro ⟨j, hj⟩
        refine ⟨j, ?_⟩
        rwa [update_of_ne]
        rintro rfl
        exact absurd (Option.some.inj (hj.reply.symm.trans hi)) hk
      · rintro ⟨j, hj⟩
        rcases eq_or_ne j i with rfl | hne
        · rw [update_self] at hj
          cases hrh.symm.trans hj.reply
        · rw [update_of_ne hne] at hj
          exact ⟨j, hj⟩
  · obtain ⟨hne, hold⟩ := hkept j k hj
    rw [update_of_ne hne]
    exact hp.full j k hold

end Slotted

def ReplyFlat.matches (f : ReplyFlat Nat) (source : Option EpId) (name : Text) (i : SlotId) : Bool :=
  (f.fReplies i).rReply.isSome && (f.fReplies i).rRecipient = source && (f.fReplies i).rMessage = some name

theorem Slotted.of_matches (hp : Slotted f.fReplies handlers) (h : f.matches source name i = true) :
    ∃ n x, (f.fReplies i).For n x ∧ handlers n = some x ∧ source = some x.target ∧ x.name = name := by
  obtain ⟨⟨hsome, hrecipient⟩, hmessage⟩ : (((f.fReplies i).rReply.isSome = true ∧
      (f.fReplies i).rRecipient = source) ∧ (f.fReplies i).rMessage = some name) := by
    simpa [ReplyFlat.matches] using h
  obtain ⟨n, hn⟩ := Option.isSome_iff_exists.mp hsome
  obtain ⟨x, hx⟩ := hp.full i n hn
  exact ⟨n, x, hx, (hp.placed n x).mpr ⟨i, hx⟩, hrecipient.symm.trans hx.recipient,
    Option.some.inj (hx.message.symm.trans hmessage)⟩

/-- A handler that no other shares its name with is found. -/
theorem Slotted.find_own (hp : Slotted f.fReplies handlers) (hx : handlers n = some x)
    (halone : ∀ k y, handlers k = some y → y.target = x.target → y.name = x.name → k = n) :
    ∃ i, f.findHandlerPeer (some x.target) x.name = some i ∧ (f.fReplies i).For n x := by
  obtain ⟨i, hi⟩ := (hp.placed n x).mp hx
  refine ⟨i, Fin.find?_eq_some_iff.mpr ⟨?_, fun j hj => ?_⟩, hi⟩
  · simp [hi.reply, hi.recipient, hi.message]
  · rw [Bool.eq_false_iff]
    intro hmatches
    obtain ⟨k, y, hy, hk, htarget, hname⟩ := hp.of_matches (i := j) hmatches
    have hkn := halone k y hk (Option.some.inj htarget).symm hname
    subst hkn
    exact absurd (hp.alone j i k hy.reply hi.reply) (Fin.ne_of_lt hj)

theorem Slotted.find_none (hp : Slotted f.fReplies handlers)
    (hno : ∀ k y, handlers k = some y → source = some y.target → y.name ≠ name) :
    f.findHandlerPeer source name = none := by
  refine Fin.find?_eq_none_iff.mpr fun i => ?_
  rw [Bool.eq_false_iff]
  intro hmatches
  obtain ⟨k, y, -, hk, htarget, hname⟩ := hp.of_matches (i := i) hmatches
  exact hno k y hk htarget hname

theorem Slotted.found (hp : Slotted f.fReplies handlers) (h : f.findHandlerPeer source name = some i) :
    ∃ n x, (f.fReplies i).For n x ∧ handlers n = some x ∧ source = some x.target ∧ x.name = name :=
  hp.of_matches (Fin.find?_eq_some_iff.mp h).1

/-- What a message that is a reply or an inform wakes. -/
theorem wake_heard {woken : ReplyFlat Nat × List (HandlerEvent Nat)} (h : f.wake source px = some woken)
    (htype : isReply px = true ∨ isInform px = true) :
    f.phase = .idle ∧
      (f.operational = true ∧ (∃ i, f.findHandlerPeer source (nameOf px) = some i ∧
          woken.1 = { f with fCurrentEndpoint := (f.fReplies i).rIssuer, phase := .calling i px }) ∨
        ((f.operational = false ∨ f.findHandlerPeer source (nameOf px) = none) ∧
          (woken.1.phase = .idle ∨ woken.1.phase = .mapping) ∧ woken.1.fReplies = f.fReplies ∧
            woken.1.fState = f.fState ∧ woken.1.fRemote = f.fRemote)) := by
  unfold ReplyFlat.wake at h
  split at h
  next => cases h
  next hphase =>
  have hidle := not_not.mp hphase
  refine ⟨hidle, ?_⟩
  split at h
  next hnot =>
    cases h
    have hdown := hnot.resolve_right (argString_isSome htype)
    exact .inr ⟨.inl (Bool.eq_false_of_not_eq_true hdown), .inl hidle, rfl, rfl, rfl⟩
  next hup =>
    rw [not_or, not_not] at hup
    rw [isRequest_eq_false htype, if_neg Bool.false_ne_true] at h
    split at h
    next j hj =>
      cases h
      exact .inl ⟨hup.1, j, hj, rfl⟩
    next hj =>
      split at h
      next =>
        cases h
        exact .inr ⟨.inr hj, .inr rfl, rfl, rfl, rfl⟩
      next =>
        cases h
        exact .inr ⟨.inr hj, .inl hidle, rfl, rfl, rfl⟩

theorem sendMessage_out {e e' : Endpoints} {target : EpId} {ack : Bool} {r : Int} {out : List EndpointEvent}
    (h : e.sendMessage source target px ack address = some (r, e', out)) :
    out = [] ∨ ∃ msg, out = [.queued msg] ∧ msg.mTo = target ∧ msg.mParse = px := by
  unfold Endpoints.sendMessage at h
  obtain ⟨_, h⟩ := Option.ite_none_left_eq_some.mp h
  obtain ⟨_, h⟩ := Option.ite_none_left_eq_some.mp h
  obtain ⟨⟨msg, e1⟩, hcreate, hrest⟩ := Option.bind_eq_some_iff.mp h
  obtain ⟨⟨r1, e2⟩, -, hend⟩ := Option.bind_eq_some_iff.mp hrest
  have hmsg : msg.mTo = target ∧ msg.mParse = px := by
    obtain ⟨_, hcreate⟩ := Option.ite_none_left_eq_some.mp hcreate
    obtain ⟨_, hcreate⟩ := Option.ite_none_left_eq_some.mp hcreate
    obtain ⟨e3, _, hcreate⟩ := Option.bind_eq_some_iff.mp hcreate
    obtain ⟨e4, _, hcreate⟩ := Option.map_eq_some_iff.mp hcreate
    cases hcreate
    exact ⟨rfl, rfl⟩
  dsimp only at hend
  split at hend
  next =>
    obtain ⟨e5, _, hend⟩ := Option.map_eq_some_iff.mp hend
    cases hend
    exact .inl rfl
  next =>
    split at hend
    next =>
      obtain ⟨f, _, hend⟩ := Option.bind_eq_some_iff.mp hend
      obtain ⟨e5, _, hend⟩ := Option.map_eq_some_iff.mp hend
      cases hend
      exact .inr ⟨msg, rfl, hmsg⟩
    next =>
      cases hend
      exact .inr ⟨msg, rfl, hmsg⟩

theorem returns_own (hphase : f.phase = .calling i px) {done : ReplyFlat Nat × List (HandlerEvent Nat)}
    (h : f.returns (some .own) address = some done) :
    done.1.leave.phase = .idle ∧ done.1.leave.fState = f.fState ∧ done.1.leave.fRemote = f.fRemote ∧
      (isReply px = true → ∃ rh, rh.rReply = none ∧ done.1.leave.fReplies = update f.fReplies i rh) ∧
      (isReply px = false → done.1.leave.fReplies = f.fReplies) := by
  unfold ReplyFlat.returns at h
  rw [hphase] at h
  obtain ⟨⟨s1, out1⟩, hout, rfl⟩ := Option.map_eq_some_iff.mp h
  unfold ReplyFlat.processOutstanding at hout
  dsimp only at hout ⊢
  cases hreply : isReply px with
  | true =>
    rw [hreply, if_pos rfl] at hout
    obtain ⟨rh, e, hrh, rfl⟩ := (retire_givenUp hout).slot
    rw [if_pos rfl]
    exact ⟨rfl, rfl, rfl, fun _ => ⟨rh, hrh, rfl⟩, fun hno => (by cases hno)⟩
  | false =>
    rw [hreply, if_neg Bool.false_ne_true] at hout
    cases hout
    rw [if_neg Bool.false_ne_true]
    exact ⟨rfl, rfl, rfl, fun hno => (by cases hno), fun _ => rfl⟩

/-- What a handler passes on, and what becomes of its slot. -/
structure Completed (f : ReplyFlat Nat) (retainInfo : Bool) (i : SlotId) (px : Words) (f' : ReplyFlat Nat)
    (passed : Passed) (msg : Option EpMessage) : Prop where
  told : ∃ n initial, (f.fReplies i).rReply = some n ∧ (f.fReplies i).rInitial = some initial ∧
    passed = ⟨n, f.fCurrentEndpoint, relayedReply retainInfo initial px⟩
  queued : ∀ m, msg = some m → passed.issuer = some m.mTo ∧ passed.words = m.mParse
  phase : f'.phase = .idle
  state : f'.fState = f.fState
  remote : f'.fRemote = f.fRemote
  reply : isReply px = true → ∃ rh, rh.rReply = none ∧ f'.fReplies = update f.fReplies i rh
  inform : isReply px = false → f'.fReplies = f.fReplies

theorem completeRelay_completed {passed : Passed} {msg : Option EpMessage} (hphase : f.phase = .calling i px)
    (h : f.completeRelay retainInfo i px address = some (f', passed, msg)) :
    Completed f retainInfo i px f' passed msg := by
  obtain ⟨n, hn, h⟩ := Option.bind_eq_some_iff.mp h
  obtain ⟨initial, hinitial, h⟩ := Option.bind_eq_some_iff.mp h
  obtain ⟨⟨e, m⟩, hsent, h⟩ := Option.bind_eq_some_iff.mp h
  obtain ⟨done, hdone, h⟩ := Option.map_eq_some_iff.mp h
  cases h
  have hidle : ({ f with endpoints := e } : ReplyFlat Nat).phase = .calling i px := hphase
  obtain ⟨hleft, hstate, hremote, hreply, hinform⟩ := returns_own hidle hdone
  refine ⟨⟨n, initial, hn, hinitial, rfl⟩, fun m hm => ?_, hleft, hstate, hremote, hreply, hinform⟩
  dsimp only at hm hsent ⊢
  split at hsent
  next =>
    cases hsent
    cases hm
  next issuer hissuer =>
    obtain ⟨⟨r, e1, out1⟩, hsend, h⟩ := Option.map_eq_some_iff.mp hsent
    cases h
    rw [hissuer]
    rcases sendMessage_out hsend with rfl | ⟨msg, rfl, hto, hparse⟩
    · cases hm
    · cases hm
      exact ⟨congrArg some hto.symm, hparse.symm⟩

/-- What a command that relays a request does to the flat. -/
structure RelayOut (r : RelayFlat Nat) (n : Nat) (args : Words) (r' : RelayFlat Nat) (out : List (HandlerEvent Nat)) :
    Prop where
  state : r'.flat.fState = r.flat.fState
  remote : r'.flat.fRemote = r.flat.fRemote
  slots : heardIn out = none ∧ r'.flat.fReplies = r.flat.fReplies ∨
    ∃ msg i rh x, queuedIn (endpointsIn out) = some msg ∧ heardIn out = some x.name ∧
      (r.flat.fReplies i).rReply = none ∧ r'.flat.fReplies = update r.flat.fReplies i rh ∧ rh.For n x ∧
      x.target = msg.mTo ∧ x.args = args ∧ x.issuer = r.flat.fCurrentEndpoint

theorem RelayOut.silent {r : RelayFlat Nat} : RelayOut r n args r [] := ⟨rfl, rfl, .inl ⟨rfl, rfl⟩⟩

/-- A handler with flags is registered, or nothing changes. -/
theorem callbackFlat_flagged {reg : Registration Nat} {status : Int} {events : List (HandlerEvent Nat)}
    (hflags : reg.actual ≠ 0) (h : f.callbackFlat reg = some (status, f', events)) :
    f' = f ∧ events = [] ∨
      ∃ i e, (f.fReplies i).rReply = none ∧ f' = { f.put i reg.slot with endpoints := e } ∧
        events = [.registered i reg] := by
  unfold ReplyFlat.callbackFlat at h
  split at h
  next => cases h
  split at h
  next => cases h
  split at h
  next =>
    cases h
    exact .inl ⟨rfl, rfl⟩
  next i hi =>
    split at h
    next => cases h
    obtain ⟨e1, _, h⟩ := Option.bind_eq_some_iff.mp h
    obtain ⟨e2, _, h⟩ := Option.map_eq_some_iff.mp h
    cases h
    exact .inr ⟨i, e2, Option.isNone_iff_eq_none.mp (Fin.findRev?_eq_some_iff.mp hi).1, rfl, rfl⟩

theorem relayTo_relayed {r r' : RelayFlat Nat} {target : Option EpId} {string : Text} {flags : Nat}
    {result : KatcpResult} {events : List (HandlerEvent Nat)} (hflags : flags ≠ 0)
    (h : r.relayTo n args target px string flags address = some (result, r', events)) :
    RelayOut r n args r' events := by
  obtain ⟨ep, -, h⟩ := Option.bind_eq_some_iff.mp h
  obtain ⟨⟨status, e, sent⟩, hsend, h⟩ := Option.bind_eq_some_iff.mp h
  dsimp only at h
  rcases sendMessage_queued hsend with ⟨-, rfl, msg, hqueued⟩ | ⟨-, rfl, rfl⟩
  · rw [if_neg (by decide)] at h
    obtain ⟨⟨status, flat, out⟩, hcallback, h⟩ := Option.map_eq_some_iff.mp h
    cases h
    rcases sendMessage_out hsend with rfl | ⟨msg, rfl, hto, -⟩
    · cases hqueued
    · rcases callbackFlat_flagged (actual_ne_zero hflags) hcallback with ⟨rfl, rfl⟩ | ⟨i, e', hfree, rfl, rfl⟩
      · exact ⟨rfl, rfl, .inl ⟨rfl, rfl⟩⟩
      · refine ⟨rfl, rfl, .inr ⟨msg, i, _, ⟨ep, r.flat.fCurrentEndpoint, args, _⟩, rfl, rfl, hfree, rfl,
          ⟨rfl, rfl, rfl, rfl, rfl⟩, hto.symm, rfl, rfl⟩⟩
  · rw [if_pos (by decide)] at h
    cases h
    exact ⟨rfl, rfl, .inl ⟨rfl, rfl⟩⟩

theorem relays_relayed {r r' : RelayFlat Nat} {how : RelayBy} {result : KatcpResult}
    {events : List (HandlerEvent Nat)} (h : r.relays how n args address = some (result, r', events)) :
    RelayOut r n args r' events := by
  cases how with
  | generic =>
    change r.relayGeneric n args address = _ at h
    unfold RelayFlat.relayGeneric at h
    split at h
    next =>
      cases h
      exact .silent
    split at h
    next =>
      split at h
      next =>
        cases h
        exact .silent
      next => exact relayTo_relayed (by split <;> decide) h
    next =>
      cases h
      exact .silent
  | forward peer generated =>
    change r.performForward n peer generated args address = _ at h
    unfold RelayFlat.performForward at h
    split at h
    next =>
      cases h
      exact .silent
    split at h
    next =>
      cases h
      exact .silent
    split at h
    next =>
      cases h
      exact .silent
    split at h
    next =>
      cases h
      exact .silent
    next => exact relayTo_relayed (by decide) h

/-- What the desk knows fits what was said. -/
structure RelayHolds (remote : EpId) (retainInfo : Bool) (s : RelayDesk) (log : List RelayEvent) : Prop where
  fitting : Fitting (RelayFits remote retainInfo) [] log
  retains : s.retainInfo = retainInfo
  ends : s.relay.flat.fRemote = some remote
  phase : s.relay.flat.phase = .idle
  state : s.relay.flat.fState = stateOf log
  asked : s.asked = askedOf remote log
  placed : Slotted s.relay.flat.fReplies fun n => handlerOf n log
  fresh : ∀ n, s.fresh ≤ n → handlerOf n log = none
  numbered : ∀ e ∈ s.asked, e.1 < s.fresh
  answers : ∀ e ∈ s.asked, ∀ x, handlerOf e.1 log = some x → x.target = remote
  apart : ∀ n x, handlerOf n log = some x → x.target = remote → ∀ e ∈ s.asked, e.1 ≠ n → e.2 ≠ x.name

theorem operational_iff : f.operational = true ↔ f.fState ∈ [FlatState.up, .finishing, .ending] := by
  simp [ReplyFlat.operational, or_assoc]

theorem handlerOf_append (n : Nat) (log out : List RelayEvent) :
    handlerOf n (log ++ out) = out.foldl (RelayEvent.handler n) (handlerOf n log) := List.foldl_append

theorem askedOf_append (remote : EpId) (log out : List RelayEvent) :
    askedOf remote (log ++ out) = out.foldl (RelayEvent.asked remote) (askedOf remote log) := List.foldl_append

theorem stateOf_append (log out : List RelayEvent) :
    stateOf (log ++ out) = out.foldl RelayEvent.state (stateOf log) := List.foldl_append

theorem foldl_queued {β : Type} {g : β → RelayEvent → β} (hg : ∀ x msg, g x (.queued msg) = x)
    (msgs : List EpMessage) (x : β) : (msgs.map RelayEvent.queued).foldl g x = x := by
  induction msgs with
  | nil => rfl
  | cons msg msgs ih => rw [List.map_cons, List.foldl_cons, hg, ih]

namespace RelayHolds

/-- Nothing new is sent, and the handlers that are left were there before. -/
theorem fewer (hi : RelayHolds remote retainInfo s log) {asked : List (Nat × Text)}
    (hfit : Fitting (RelayFits remote retainInfo) log out) (hends : f.fRemote = some remote)
    (hphase : f.phase = .idle) (hstate : f.fState = stateOf (log ++ out))
    (hasked : asked = askedOf remote (log ++ out))
    (hsub : ∀ e ∈ asked, e ∈ s.asked) (hplaced : Slotted f.fReplies fun n => handlerOf n (log ++ out))
    (hfewer : ∀ n x, handlerOf n (log ++ out) = some x → handlerOf n log = some x) :
    RelayHolds remote retainInfo { s.setFlat f with asked := asked } (log ++ out) where
  fitting := (fitting_append [] log out).mpr ⟨hi.fitting, hfit⟩
  retains := hi.retains
  ends := hends
  phase := hphase
  state := hstate
  asked := hasked
  placed := hplaced
  fresh n hn := by
    by_contra hne
    obtain ⟨x, hx⟩ := Option.ne_none_iff_exists'.mp hne
    have hold := hfewer n x hx
    rw [hi.fresh n hn] at hold
    cases hold
  numbered e he := hi.numbered e (hsub e he)
  answers e he x hx := hi.answers e (hsub e he) x (hfewer e.1 x hx)
  apart n x hx htarget e he hne := hi.apart n x (hfewer n x hx) htarget e (hsub e he) hne

/-- The request that the remote is about to answer is the only one that is waited for under that name. -/
theorem own (hi : RelayHolds remote retainInfo s log) (hhead : s.asked.head? = some (n, nameOf px))
    (hk : handlerOf k log = some y) (htarget : y.target = remote) (hname : y.name = nameOf px) : k = n := by
  by_contra hne
  exact hi.apart k y hk htarget (n, nameOf px) (List.mem_of_mem_head? hhead) (Ne.symm hne) hname.symm

/-- What the remote says is found by the handler of its oldest request, if there is one. -/
theorem ownPassed_found (hi : RelayHolds remote retainInfo s log) (hsource : source = some remote)
    (hhead : s.asked.head? = some (n, nameOf px)) (hup : s.relay.flat.operational = true)
    (hfound : s.relay.flat.findHandlerPeer source (nameOf px) = some i) (hx : (s.relay.flat.fReplies i).For k x) :
    ownPassed retainInfo log n px = some ⟨k, x.issuer, relayedReply retainInfo x.args px⟩ := by
  obtain ⟨m, y, hy, hm, htarget, hname⟩ := hi.placed.found hfound
  obtain ⟨rfl, rfl⟩ := hx.unique hy
  have hremote : x.target = remote := Option.some.inj (htarget.symm.trans hsource)
  have hkn := hi.own hhead hm hremote hname
  subst hkn
  have hstate : stateOf log ∈ [FlatState.up, .finishing, .ending] := hi.state ▸ operational_iff.mp hup
  have hm' : handlerOf k log = some x := hm
  have hkept : (some x).filter (fun h : RelayHandler => decide (h.name = nameOf px)) = some x :=
    Option.filter_some_pos (decide_eq_true hname)
  rw [ownPassed, if_pos hstate, hm', hkept]
  rfl

theorem ownPassed_none (hi : RelayHolds remote retainInfo s log) (hsource : source = some remote)
    (hhead : s.asked.head? = some (n, nameOf px))
    (hnone : s.relay.flat.operational = false ∨ s.relay.flat.findHandlerPeer source (nameOf px) = none) :
    ownPassed retainInfo log n px = none := by
  unfold ownPassed
  split
  next hstate =>
    have hup : s.relay.flat.operational = true := operational_iff.mpr (hi.state ▸ hstate)
    have hnone := hnone.resolve_left (by rw [hup]; decide)
    rw [Option.map_eq_none_iff, Option.filter_eq_none_iff]
    intro x hx hname
    have hname := of_decide_eq_true hname
    have htarget : x.target = remote := hi.answers (n, nameOf px) (List.mem_of_mem_head? hhead) x hx
    obtain ⟨i, hi', -⟩ := hi.placed.find_own hx fun k y hk hky hkn =>
      hi.own hhead hk (hky.trans htarget) (hkn.trans hname)
    rw [htarget, hname, ← hsource, hnone] at hi'
    cases hi'
  next => rfl

theorem leftBy_eq (hi : RelayHolds remote retainInfo s log) (passed : Option Passed) (msgs : List EpMessage) :
    s.leftBy source px = askedOf remote (log ++ .heard source px passed :: msgs.map .queued) := by
  rw [askedOf_append, List.foldl_cons, foldl_queued fun _ _ => rfl, ← hi.asked, RelayDesk.leftBy, hi.ends]
  rfl

theorem mem_of_leftBy {e : Nat × Text} (he : e ∈ s.leftBy source px) : e ∈ s.asked := by
  unfold RelayDesk.leftBy at he
  split at he
  next => exact List.mem_of_mem_tail he
  next => exact he

theorem stateOf_heard (log : List RelayEvent) (passed : Option Passed) (msgs : List EpMessage) :
    stateOf (log ++ .heard source px passed :: msgs.map .queued) = stateOf log := by
  rw [stateOf_append, List.foldl_cons, foldl_queued fun _ _ => rfl]
  rfl

theorem handlerOf_heard (n : Nat) (log : List RelayEvent) (passed : Option Passed) (msgs : List EpMessage) :
    handlerOf n (log ++ .heard source px passed :: msgs.map .queued) =
      if isReply px = true ∧ passed.map Passed.request = some n then none else handlerOf n log := by
  rw [handlerOf_append, List.foldl_cons, foldl_queued fun _ _ => rfl]
  rfl

/-- A message that nobody waits for. -/
theorem unheard (hi : RelayHolds remote retainInfo s log)
    (hnone : s.relay.flat.operational = false ∨ s.relay.flat.findHandlerPeer source (nameOf px) = none)
    (hslots : f.fReplies = s.relay.flat.fReplies) (hstate : f.fState = s.relay.flat.fState)
    (hends : f.fRemote = s.relay.flat.fRemote) (hphase : f.phase = .idle) :
    RelayHolds remote retainInfo { s.setFlat f with asked := s.leftBy source px }
      (log ++ [.heard source px none]) := by
  have hhandler : ∀ n, handlerOf n (log ++ [.heard source px none]) = handlerOf n log := by
    intro n
    refine (handlerOf_heard n log none []).trans (if_neg fun h => ?_)
    cases h.2
  refine hi.fewer ⟨fun hsource n hhead => ?_, trivial⟩ (hends.trans hi.ends) hphase ?_ (hi.leftBy_eq none [])
    (fun e he => mem_of_leftBy he) ?_ fun n x hx => ?_
  · rw [← hi.asked] at hhead
    exact (hi.ownPassed_none hsource hhead hnone).symm
  · rw [hstate, hi.state]
    exact (stateOf_heard log none []).symm
  · have hafter : (fun n => handlerOf n (log ++ [.heard source px none])) = fun n => handlerOf n log :=
      funext hhandler
    rw [hslots, hafter]
    exact hi.placed
  · rw [← hhandler n]
    exact hx

/-- A message that a handler passes on. -/
theorem passed (hi : RelayHolds remote retainInfo s log) (hup : s.relay.flat.operational = true)
    (hfound : s.relay.flat.findHandlerPeer source (nameOf px) = some i) {told : Passed} {msg : Option EpMessage}
    (hdone : Completed
      { s.relay.flat with fCurrentEndpoint := (s.relay.flat.fReplies i).rIssuer, phase := .calling i px }
      s.retainInfo i px f told msg) :
    RelayHolds remote retainInfo { s.setFlat f with asked := s.leftBy source px }
      (log ++ .heard source px (some told) :: msg.toList.map .queued) := by
  obtain ⟨k, x, hx, hk, htarget, hname⟩ := hi.placed.found hfound
  have htold : told = ⟨k, x.issuer, relayedReply retainInfo x.args px⟩ := by
    obtain ⟨n, initial, hn, hinitial, rfl⟩ := hdone.told
    have hnk : n = k := Option.some.inj (hn.symm.trans hx.reply)
    have hargs : initial = x.args := Option.some.inj (hinitial.symm.trans hx.initial)
    rw [hnk, hargs, ← hi.retains, ← hx.issuer]
  have hhandler : ∀ n, handlerOf n (log ++ .heard source px (some told) :: msg.toList.map .queued) =
      if isReply px = true ∧ k = n then none else handlerOf n log := by
    intro n
    refine (handlerOf_heard n log (some told) msg.toList).trans (if_congr (and_congr_right' ?_) rfl rfl)
    rw [htold]
    exact Option.some_inj
  refine hi.fewer ⟨fun hsource n hhead => ?_, ?_⟩ (hdone.remote.trans hi.ends) hdone.phase ?_ (hi.leftBy_eq _ _)
    (fun e he => mem_of_leftBy he) ?_ fun n y hy => ?_
  · rw [← hi.asked] at hhead
    rw [htold]
    exact (hi.ownPassed_found hsource hhead hup hfound hx).symm
  · cases msg with
    | none => exact trivial
    | some m =>
      obtain ⟨hissuer, hwords⟩ := hdone.queued m rfl
      exact ⟨⟨source, px, told, List.getLast?_concat, hissuer, hwords⟩, trivial⟩
  · rw [hdone.state, stateOf_heard]
    exact hi.state
  · cases hreply : isReply px with
    | true =>
      obtain ⟨rh, hrh, hslots⟩ := hdone.reply hreply
      have hafter : (fun n => handlerOf n (log ++ .heard source px (some told) :: msg.toList.map .queued)) =
          update (fun n => handlerOf n log) k none := by
        funext n
        rw [hhandler]
        rcases eq_or_ne k n with rfl | hne
        · rw [if_pos ⟨hreply, rfl⟩, update_self]
        · rw [if_neg fun h => hne h.2, update_of_ne (Ne.symm hne)]
      rw [hslots, hafter]
      exact hi.placed.drop hx.reply hrh
    | false =>
      have hafter : (fun n => handlerOf n (log ++ .heard source px (some told) :: msg.toList.map .queued)) =
          fun n => handlerOf n log := by
        funext n
        rw [hhandler, if_neg]
        rw [hreply]
        exact fun h => absurd h.1 Bool.false_ne_true
      rw [hdone.inform hreply, hafter]
      exact hi.placed
  · rw [hhandler] at hy
    split at hy
    next => cases hy
    next => exact hy

theorem hears (hi : RelayHolds remote retainInfo s log) (htype : isReply px = true ∨ isInform px = true)
    (h : s.hears source px address = some (s', out)) : RelayHolds remote retainInfo s' (log ++ out) := by
  unfold RelayDesk.hears at h
  split at h
  next => cases h
  next =>
    obtain ⟨⟨woken, events⟩, hwake, h⟩ := Option.bind_eq_some_iff.mp h
    obtain ⟨-, ⟨hup, i, hfound, hwoken⟩ | ⟨hnone, hphase, hslots, hstate, hends⟩⟩ := wake_heard hwake htype
    · have hcalling : woken =
          { s.relay.flat with fCurrentEndpoint := (s.relay.flat.fReplies i).rIssuer, phase := .calling i px } :=
        hwoken
      subst hcalling
      obtain ⟨⟨f, told, msg⟩, hdone, h⟩ := Option.map_eq_some_iff.mp h
      cases h
      exact hi.passed hup hfound (completeRelay_completed rfl hdone)
    · dsimp only at h hphase
      split at h
      next j q hcalling => rcases hphase with hphase | hphase <;> cases hcalling.symm.trans hphase
      next =>
        cases h
        exact hi.unheard hnone hslots hstate hends rfl

/-- Nothing happens to the slots, and nothing is said. -/
theorem kept (hi : RelayHolds remote retainInfo s log) {r : RelayFlat Nat} {fresh : Nat} (hfresh : s.fresh ≤ fresh)
    (hslots : r.flat.fReplies = s.relay.flat.fReplies) (hstate : r.flat.fState = s.relay.flat.fState)
    (hends : r.flat.fRemote = s.relay.flat.fRemote) (hphase : r.flat.phase = .idle) :
    RelayHolds remote retainInfo { s with relay := r, asked := s.asked ++ [], fresh := fresh } (log ++ []) := by
  rw [List.append_nil, List.append_nil]
  exact ⟨hi.fitting, hi.retains, hends.trans hi.ends, hphase, hstate.trans hi.state, hi.asked,
    hslots.symm ▸ hi.placed, fun n hn => hi.fresh n (Nat.le_trans hfresh hn),
    fun e he => Nat.lt_of_lt_of_le (hi.numbered e he) hfresh, hi.answers, hi.apart⟩

/-- A request is sent, with or without a handler for its reply. -/
theorem sent (hi : RelayHolds remote retainInfo s log) {r : RelayFlat Nat} {msg : EpMessage} {told : Option Text}
    (hslots : told = none ∧ r.flat.fReplies = s.relay.flat.fReplies ∨
      ∃ i rh x, told = some x.name ∧ (s.relay.flat.fReplies i).rReply = none ∧
        r.flat.fReplies = update s.relay.flat.fReplies i rh ∧ rh.For s.fresh x ∧ x.target = msg.mTo ∧ x.args = args ∧
        x.issuer = source)
    (hstate : r.flat.fState = s.relay.flat.fState) (hends : r.flat.fRemote = s.relay.flat.fRemote)
    (hphase : r.flat.phase = .idle)
    (hapart : RelayEvent.ApartIn s (.sent s.fresh msg.mTo msg.mParse source args told)) :
    RelayHolds remote retainInfo
      { s with
        relay := r
        asked := s.asked ++ (if msg.mTo = remote then [(s.fresh, nameOf msg.mParse)] else [])
        fresh := s.fresh + 1 }
      (log ++ [.sent s.fresh msg.mTo msg.mParse source args told]) := by
  have hnew : handlerOf s.fresh log = none := hi.fresh s.fresh (Nat.le_refl _)
  have hhandler : ∀ n, handlerOf n (log ++ [.sent s.fresh msg.mTo msg.mParse source args told]) =
      if s.fresh = n then told.map fun name => ⟨msg.mTo, source, args, name⟩ else handlerOf n log :=
    fun n => handlerOf_append n log _
  have hplaced : Slotted r.flat.fReplies fun n =>
      handlerOf n (log ++ [.sent s.fresh msg.mTo msg.mParse source args told]) := by
    rcases hslots with ⟨rfl, hslots⟩ | ⟨i, rh, x, rfl, hfree, hslots, hrh, htarget, hargs, hissuer⟩
    · have hafter : (fun n => handlerOf n (log ++ [.sent s.fresh msg.mTo msg.mParse source args none])) =
          fun n => handlerOf n log := by
        funext n
        rw [hhandler]
        split
        next heq => rw [← heq, hnew, Option.map_none]
        next => rfl
      rw [hslots, hafter]
      exact hi.placed
    · have hx : (⟨msg.mTo, source, args, x.name⟩ : RelayHandler) = x := by rw [← htarget, ← hargs, ← hissuer]
      have hafter : (fun n => handlerOf n (log ++ [.sent s.fresh msg.mTo msg.mParse source args (some x.name)])) =
          update (fun n => handlerOf n log) s.fresh (some x) := by
        funext n
        rw [hhandler]
        split
        next heq =>
          subst heq
          rw [Option.map_some, hx, update_self]
        next hne => rw [update_of_ne (Ne.symm hne)]
      rw [hslots, hafter]
      exact hi.placed.add hfree hnew hrh
  have hasked : ∀ e ∈ s.asked ++ (if msg.mTo = remote then [(s.fresh, nameOf msg.mParse)] else []),
      e ∈ s.asked ∨ msg.mTo = remote ∧ e = (s.fresh, nameOf msg.mParse) := by
    intro e he
    rcases List.mem_append.mp he with he | he
    · exact .inl he
    · split at he
      next hto => exact .inr ⟨hto, List.mem_singleton.mp he⟩
      next => cases he
  refine ⟨(fitting_append [] log _).mpr ⟨hi.fitting, trivial, trivial⟩, hi.retains, hends.trans hi.ends, hphase,
    ?_, ?_, hplaced, fun n hn => ?_, fun e he => ?_, fun e he x hx => ?_, fun n x hx htarget e he hne => ?_⟩
  · rw [stateOf_append, ← hi.state]
    exact hstate
  · have hlog : askedOf remote (log ++ [.sent s.fresh msg.mTo msg.mParse source args told]) =
        if msg.mTo = remote then s.asked ++ [(s.fresh, nameOf msg.mParse)] else s.asked := by
      rw [askedOf_append, ← hi.asked]
      rfl
    rw [hlog]
    split
    next => rfl
    next => exact List.append_nil _
  · rw [hhandler, if_neg (Nat.ne_of_lt hn)]
    exact hi.fresh n (Nat.le_of_succ_le hn)
  · rcases hasked e he with he | ⟨-, rfl⟩
    · exact Nat.lt_succ_of_lt (hi.numbered e he)
    · exact Nat.lt_succ_self _
  · rw [hhandler] at hx
    rcases hasked e he with he | ⟨hto, rfl⟩
    · rw [if_neg (Nat.ne_of_gt (hi.numbered e he))] at hx
      exact hi.answers e he x hx
    · rw [if_pos rfl] at hx
      obtain ⟨name, -, rfl⟩ := Option.map_eq_some_iff.mp hx
      exact hto
  · rw [hhandler] at hx
    split at hx
    next heq =>
      obtain ⟨name, rfl, rfl⟩ := Option.map_eq_some_iff.mp hx
      rcases hasked e he with he | ⟨-, rfl⟩
      · exact fun hname => (hapart ((congrArg some htarget).trans hi.ends.symm)).1 e he (congrArg some hname.symm)
      · exact absurd heq hne
    next =>
      rcases hasked e he with he | ⟨hto, rfl⟩
      · exact hi.apart n x hx htarget e he hne
      · obtain ⟨i, hi'⟩ := (hi.placed.placed n x).mp hx
        intro hname
        refine (hapart ((congrArg some hto).trans hi.ends.symm)).2 i (by rw [hi'.reply]; rfl)
          (by rw [hi'.recipient, htarget, hto]) ?_
        rw [hi'.message]
        exact congrArg some hname.symm

theorem wake_request {woken : ReplyFlat Nat × List (HandlerEvent Nat)} (h : f.wake source args = some woken)
    (hrequest : isRequest args = true) :
    woken.1 = f ∨ woken.1 = { f with fCurrentEndpoint := source, phase := .mapping } := by
  unfold ReplyFlat.wake at h
  split at h
  next => cases h
  split at h
  next =>
    cases h
    exact .inl rfl
  next =>
    cases h
    exact .inr rfl

theorem request (hi : RelayHolds remote retainInfo s log) {how : RelayBy} (hrequest : isRequest args = true)
    (hapart : s.Apart (.request source args how address)) (h : s.request source args how address = some (s', out)) :
    RelayHolds remote retainInfo s' (log ++ out) := by
  have hact : s.act (.request source args how address) = some (s', out) := (if_pos hrequest).trans h
  unfold RelayDesk.request at h
  obtain ⟨⟨woken, events⟩, hwake, h⟩ := Option.bind_eq_some_iff.mp h
  dsimp only at h
  split at h
  next hphase =>
    obtain ⟨⟨result, r, more⟩, hrelays, hout⟩ := Option.map_eq_some_iff.mp h
    dsimp only at hout
    rcases wake_request hwake hrequest with hwoken | hwoken
    · rw [show woken = s.relay.flat from hwoken, hi.phase] at hphase
      cases hphase
    · have hwoken : woken = { s.relay.flat with fCurrentEndpoint := source, phase := .mapping } := hwoken
      subst hwoken
      obtain ⟨hstate, hends, hslots⟩ := relays_relayed hrelays
      cases hqueued : queuedIn (endpointsIn more) with
      | none =>
        rw [hqueued] at hout
        cases hout
        rcases hslots with ⟨-, hslots⟩ | ⟨msg, i, rh, x, hmsg, -⟩
        · exact hi.kept (r := { r with flat := r.flat.leave }) (Nat.le_succ _) hslots hstate hends rfl
        · rw [hqueued] at hmsg
          cases hmsg
      | some msg =>
        rw [hqueued] at hout
        have hasks :
            (([msg].filter fun m => some m.mTo = s.relay.flat.fRemote).map fun m => (s.fresh, nameOf m.mParse)) =
            if msg.mTo = remote then [(s.fresh, nameOf msg.mParse)] else [] := by
          rw [hi.ends]
          by_cases hto : msg.mTo = remote <;> simp [hto]
        have hshape : ({ s with
              relay := { r with flat := r.flat.leave }
              asked := s.asked ++ (if msg.mTo = remote then [(s.fresh, nameOf msg.mParse)] else [])
              fresh := s.fresh + 1 }, [RelayEvent.sent s.fresh msg.mTo msg.mParse source args (heardIn more)]) =
            (s', out) := by
          rw [← hasks]
          exact hout
        cases hshape
        refine hi.sent (r := { r with flat := r.flat.leave }) ?_ hstate hends rfl ?_
        · rcases hslots with hslots | ⟨msg', i, rh, x, hmsg, hslots⟩
          · exact .inl hslots
          · cases hqueued.symm.trans hmsg
            exact .inr ⟨i, rh, x, hslots⟩
        · rw [RelayDesk.Apart, hact] at hapart
          exact hapart _ (List.mem_singleton_self _)
  next =>
    cases h
    have hkept : RelayHolds remote retainInfo { s with relay := s.relay, asked := s.asked ++ [], fresh := s.fresh }
        (log ++ []) := hi.kept (Nat.le_refl _) rfl rfl rfl hi.phase
    rw [List.append_nil s.asked] at hkept
    exact hkept

theorem cancelSlots_emptied {slots : List SlotId} {events : List (HandlerEvent Nat)}
    (h : ReplyFlat.cancelSlots slots f = some (f', events)) :
    (∀ i, (f'.fReplies i).rReply = if i ∈ slots then none else (f.fReplies i).rReply) ∧ f'.fState = f.fState ∧
      f'.fRemote = f.fRemote ∧ f'.phase = f.phase := by
  induction slots generalizing f events with
  | nil =>
    cases h
    exact ⟨fun i => rfl, rfl, rfl, rfl⟩
  | cons i slots ih =>
    obtain ⟨⟨f1, first⟩, hfirst, h⟩ := Option.bind_eq_some_iff.mp h
    obtain ⟨⟨f2, rest⟩, hrest, h⟩ := Option.map_eq_some_iff.mp h
    cases h
    obtain ⟨hslots, hstate, hends, hphase⟩ := ih hrest
    obtain ⟨rh, e, hrh, rfl⟩ := (cancelSlot_givenUp hfirst).slot
    refine ⟨fun j => ?_, hstate, hends, hphase⟩
    rw [hslots j]
    by_cases hj : j ∈ slots
    · rw [if_pos hj, if_pos (List.mem_cons_of_mem i hj)]
    · rw [if_neg hj]
      rcases eq_or_ne j i with rfl | hne
      · rw [if_pos List.mem_cons_self]
        have hself : (f.put j rh).fReplies j = rh := update_self _ _ _
        exact (congrArg ReplySlot.rReply hself).trans hrh
      · rw [if_neg fun hm => (List.mem_cons.mp hm).elim hne hj]
        have hother : (f.put i rh).fReplies j = f.fReplies j := update_of_ne hne _ _
        exact congrArg ReplySlot.rReply hother

theorem act (hi : RelayHolds remote retainInfo s log) {a : RelayInput} (hapart : s.Apart a)
    (h : s.act a = some (s', out)) : RelayHolds remote retainInfo s' (log ++ out) := by
  cases a with
  | request source args how address =>
    obtain ⟨hrequest, h⟩ := Option.ite_none_right_eq_some.mp h
    exact hi.request hrequest hapart h
  | hears source px address =>
    obtain ⟨htype, h⟩ := Option.ite_none_right_eq_some.mp h
    exact hi.hears (Bool.or_eq_true_iff.mp htype) h
  | cancel =>
    obtain ⟨⟨f, events⟩, hcancel, h⟩ := Option.map_eq_some_iff.mp h
    cases h
    obtain ⟨hslots, hstate, hends, hphase⟩ := cancelSlots_emptied hcancel
    have hempty : ∀ i, (f.fReplies i).rReply = none := fun i => (hslots i).trans (if_pos (List.mem_finRange i))
    have hnone : ∀ n, handlerOf n (log ++ [.cancelled]) = none := fun n => handlerOf_append n log _
    refine hi.fewer ⟨trivial, trivial⟩ (hends.trans hi.ends) (hphase.trans hi.phase) ?_ ?_ (fun e he => he) ?_
      fun n x hx => ?_
    · rw [stateOf_append, hstate]
      exact hi.state
    · rw [askedOf_append]
      exact hi.asked
    · refine ⟨fun n x => ⟨fun hx => ?_, fun hx => ?_⟩, fun i n hn => ?_, fun i j n hn => ?_⟩
      · rw [hnone] at hx
        cases hx
      · obtain ⟨i, hx⟩ := hx
        cases (hempty i).symm.trans hx.reply
      · cases (hempty i).symm.trans hn
      · cases (hempty i).symm.trans hn
    · rw [hnone] at hx
      cases hx
  | state fState =>
    cases h
    have hsame : ∀ n, handlerOf n (log ++ [.turned fState]) = handlerOf n log := fun n => handlerOf_append n log _
    refine hi.fewer ⟨trivial, trivial⟩ hi.ends hi.phase ?_ ?_ (fun e he => he) ?_ fun n x hx => ?_
    · rw [stateOf_append]
      rfl
    · rw [askedOf_append]
      exact hi.asked
    · rw [funext hsame]
      exact hi.placed
    · rw [hsame] at hx
      exact hx
  | others a =>
    obtain ⟨⟨e, events⟩, -, h⟩ := Option.map_eq_some_iff.mp h
    cases h
    rw [List.append_nil]
    exact ⟨hi.fitting, hi.retains, hi.ends, hi.phase, hi.state, hi.asked, hi.placed, hi.fresh, hi.numbered,
      hi.answers, hi.apart⟩
  | regroup groups peerOf =>
    cases h
    rw [List.append_nil]
    exact ⟨hi.fitting, hi.retains, hi.ends, hi.phase, hi.state, hi.asked, hi.placed, hi.fresh, hi.numbered,
      hi.answers, hi.apart⟩

end RelayHolds

end

/-- Requests that are relayed to the remote of a flat, which answers in order, in any run in which no request is sent
under a name that another is waited for by: what the remote says about its oldest request is passed on to the issuer
of that request alone, under the name of its own request, and its reply once, as long as the flat is up and has a
handler for it. -/
theorem relays_correlated {peer remote : EpId} {groups : Groups} {fx : FlatId} {peerOf : FlatId → Option EpId}
    {installInfo retainInfo : Bool} {s : RelayDesk} {log : List RelayEvent}
    (h : (relayDeskMachine (createRelayDesk peer remote groups fx peerOf installInfo retainInfo)).Runs
      RelayDesk.Apart s log) :
    Fitting (RelayFits remote retainInfo) [] log := by
  have hstart :
      RelayHolds remote retainInfo (createRelayDesk peer remote groups fx peerOf installInfo retainInfo) [] := by
    refine ⟨trivial, rfl, rfl, rfl, rfl, rfl, .empty, fun _ _ => rfl, fun e he => ?_, fun e he => ?_,
      fun n x hx => ?_⟩
    · cases he
    · cases he
    · cases hx
  exact (h.invariant (RelayHolds remote retainInfo) hstart (Machine.keeps_of_act (f := RelayDesk.act) (fun _ _ => rfl)
    (fun _ _ => rfl) fun s log a s' out hi hapart hact => hi.act hapart hact)).fitting

/-- The actions of a list keep names apart, one after the other. -/
def RelayDesk.apartAll : RelayDesk → List RelayInput → Bool
  | _, [] => true
  | s, a :: rest => decide (s.Apart a) && ((s.act a).map Prod.fst).all fun s' => apartAll s' rest

theorem meets_of_apartAll {start s : RelayDesk} {actions : List RelayInput} (h : s.apartAll actions = true) :
    (relayDeskMachine start).Meets RelayDesk.Apart s actions := by
  induction actions generalizing s with
  | nil => trivial
  | cons a rest ih =>
    obtain ⟨ha, hrest⟩ := Bool.and_eq_true_iff.mp h
    refine ⟨of_decide_eq_true ha, fun s' hs => ih ?_⟩
    have hstep : (s.act a).map Prod.fst = some s' := hs
    rw [hstep] at hrest
    exact hrest

def relayStart : RelayDesk := createRelayDesk 0 1 crowdedGroups 0 (fun _ => none) true false

/-- The peers of two other flats have a request relayed each, and the remote answers both. -/
def relayedPair : List RelayInput :=
  (List.range 4).map (fun ep => .others (.call (.create true false ep))) ++
    [.request (some 2) [textOf "?relay", textOf "a", textOf "status"] .generic 0,
      .request (some 3) [textOf "?ask", textOf "a", textOf "help"] .generic 1,
      .hears (some 1) [textOf "!status", textOf "ok"] 2, .hears (some 1) [textOf "!help", textOf "ok", textOf "3"] 3]

def RelayEvent.told : RelayEvent → Option Passed
  | .heard _ _ passed => passed
  | _ => none

theorem relayedPair_told : relayStart.apartAll relayedPair = true ∧
    (((relayDeskMachine relayStart).exec relayStart relayedPair).map fun r => r.2.filterMap RelayEvent.told) =
      some [⟨0, some 2, [textOf "!relay", textOf "ok"]⟩, ⟨1, some 3, [textOf "!ask", textOf "ok", textOf "3"]⟩] := by
  decide +kernel

theorem relays_correlated_pair : ∃ s log, (relayDeskMachine relayStart).Runs RelayDesk.Apart s log ∧
    log.filterMap RelayEvent.told =
      [⟨0, some 2, [textOf "!relay", textOf "ok"]⟩, ⟨1, some 3, [textOf "!ask", textOf "ok", textOf "3"]⟩] ∧
      Fitting (RelayFits 1 false) [] log := by
  obtain ⟨hapart, htold⟩ := relayedPair_told
  obtain ⟨⟨s, log⟩, he, hlog⟩ := Option.map_eq_some_iff.mp htold
  have hruns :=
    Machine.Runs.exec (.start (m := relayDeskMachine relayStart)) relayedPair he (meets_of_apartAll hapart)
  rw [List.nil_append] at hruns
  exact ⟨s, log, hruns, hlog, relays_correlated hruns⟩

/-- With two requests of one name, the first answer goes to the issuer of the second request. -/
example : (((relayDeskMachine relayStart).exec relayStart (relayedPair.take 5 ++
    [.request (some 3) [textOf "?relay", textOf "a", textOf "status"] .generic 1,
      .hears (some 1) [textOf "!status", textOf "ok"] 2])).map fun r => r.2.filterMap RelayEvent.told) =
    some [⟨1, some 3, [textOf "!relay", textOf "ok"]⟩] := by
  decide +kernel

end Katcp
