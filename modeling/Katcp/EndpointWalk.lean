import Katcp.EndpointTurn
import Katcp.LinkedPath

namespace Katcp

section

open Function

variable {s s' : Endpoints} {queued queued' : List EpMessage} {ep : EpId} {e : Endpoint} {m : EpMessage}
  {out : List EndpointEvent}

theorem names_eq_zero : m.names ep = 0 ↔ m.mFrom ≠ some ep ∧ m.mTo ≠ ep := by
  unfold EpMessage.names
  by_cases hf : m.mFrom = some ep
  · simp [hf]
  · by_cases ht : m.mTo = ep
    · simp [ht]
    · simp [hf, ht]

theorem namings_eq_zero {ms : List EpMessage} :
    namings ms ep = 0 ↔ ∀ m ∈ ms, m.mFrom ≠ some ep ∧ m.mTo ≠ ep := by
  induction ms with
  | nil => simp [namings]
  | cons m ms ih => rw [namings_cons, Nat.add_eq_zero_iff, names_eq_zero, ih, List.forall_mem_cons]

/-- No message names an endpoint that does not exist. -/
theorem Ledger.absent (h : Ledger s [] queued) (hn : s.station ep = none) (hm : m ∈ queued) :
    m.mFrom ≠ some ep ∧ m.mTo ≠ ep := by
  constructor
  · intro hf
    have hlive := (h.source m hm ep hf).1
    rw [hn] at hlive
    cases hlive
  · rintro rfl
    have hlive := h.target m hm
    rw [hn] at hlive
    cases hlive

theorem Ledger.setWalk {w : Walk} (h : Ledger s [] queued) : Ledger { s with walk := w } [] queued :=
  ⟨⟨h.tally.counted, h.tally.queue, h.tally.level⟩, h.heap, h.distinct, h.target, h.source, h.acked, h.unheld⟩

/-- What the calls of others do to the endpoints and the messages that are queued. -/
inductive Served (s : Endpoints) (queued : List EpMessage) :
    EndpointCall → Endpoints → List EpMessage → List EndpointEvent → Prop
  | created {wake fast : Bool} {ep : EpId} {s' : Endpoints} : s.station ep = none →
      s'.station = update s.station ep (some ⟨true, wake, true, wake, fast, s.sEndpoints⟩) →
      s'.sEndpoints = some ep → s'.walk = s.walk → Served s queued (.create wake fast ep) s' queued []
  | sent {source : Option EpId} {target : EpId} {px : Words} {ack : Bool} {address : MsgId} {s' : Endpoints} :
      SameStations s s' → s.receives target = true →
      Served s queued (.send source target px ack address) s' (queued ++ [⟨address, ack, px, source, target⟩])
        [.queued ⟨address, ack, px, source, target⟩]
  | unsent {source : Option EpId} {target : EpId} {px : Words} {ack : Bool} {address : MsgId} {s' : Endpoints} :
      SameStations s s' → s.receives target = false →
      Served s queued (.send source target px ack address) s' queued []
  | held {c : EndpointCall} {s' : Endpoints} : s'.station = s.station → s'.sEndpoints = s.sEndpoints →
      s'.walk = s.walk → (∀ ep, c ≠ .release ep) → Served s queued c s' queued []
  | closed {c : EndpointCall} {ep : EpId} {st : Station} {rx tx : Bool} {s' : Endpoints} :
      s.station ep = some st → st.eUp = true → rx ≤ st.eRx → tx ≤ st.eTx →
      s'.station = update s.station ep (some { st with eRx := rx, eTx := tx }) →
      s'.sEndpoints = s.sEndpoints → s'.walk = s.walk → (∀ ep, c ≠ .release ep) → Served s queued c s' queued []
  | released {ep : EpId} {st : Station} {s' : Endpoints} : s.station ep = some st → st.eUp = true →
      s'.station = update s.station ep (some st.released) → s'.sEndpoints = s.sEndpoints → s'.walk = s.walk →
      Served s queued (.release ep) s' (queued.filter (·.mTo ≠ ep) ++ (queuedAt queued ep).filterMap s.detached)
        (s.flushEvents ep (queuedAt queued ep))

theorem createEndpoint_spec {wake fast : Bool} (h : Ledger s [] queued)
    (hs : s.createEndpoint wake fast ep = some s') :
    Served s queued (.create wake fast ep) s' queued [] ∧ Ledger s' [] queued := by
  obtain ⟨hfree, hs⟩ := Option.ite_none_left_eq_some.mp hs
  obtain rfl := Option.some.inj hs
  have hnone : s.station ep = none := by simpa [Endpoints.station] using hfree
  have hstation : (s.put ep (some ⟨⟨true, wake, true, wake, fast, s.sEndpoints⟩, 0,
      createPrecedenceGueue false (some computePrecedenceEndpoint), 0⟩)).station =
      update s.station ep (some ⟨true, wake, true, wake, fast, s.sEndpoints⟩) := s.put_station ep _
  have hkept : ∀ x, (s.station x).isSome →
      (update s.station ep (some ⟨true, wake, true, wake, fast, s.sEndpoints⟩) x).isSome := by
    intro x hx
    by_cases hxe : x = ep
    · subst hxe
      rw [update_self]
      rfl
    · rwa [update_of_ne hxe]
  refine ⟨.created hnone hstation rfl rfl, ?_, h.heap, h.distinct, fun m hm => ?_, fun m hm f hf => ?_, h.acked,
    fun x hx => ?_⟩
  · have htally : Tallied (s.put ep (some ⟨⟨true, wake, true, wake, fast, s.sEndpoints⟩, 0,
        createPrecedenceGueue false (some computePrecedenceEndpoint), 0⟩))
        (fun x => namings ([] ++ queued) x + s.held x) queued := by
      refine h.tally.put ?_ (fun _ _ => rfl) ?_ (fun _ _ => rfl) rfl
      · rw [List.nil_append, namings_eq_zero.mpr fun m hm => h.absent hnone hm, h.unheld ep hnone]
      · have hnil : queuedAt queued ep = [] := List.filter_eq_nil_iff.mpr fun m hm => by
          simpa using (h.absent hnone hm).2
        rw [hnil]
        exact createPrecedenceGueue_holds
    exact ⟨htally.counted, htally.queue, htally.level⟩
  · exact hstation ▸ hkept _ (h.target m hm)
  · exact ⟨hstation ▸ hkept _ (h.source m hm f hf).1, (h.source m hm f hf).2⟩
  · have hx' : update s.station ep (some ⟨true, wake, true, wake, fast, s.sEndpoints⟩) x = none := hstation ▸ hx
    by_cases hxe : x = ep
    · subst hxe
      rw [update_self] at hx'
      cases hx'
    · rw [update_of_ne hxe] at hx'
      exact h.unheld x hx'

theorem Ledger.setHeld {s1 : Endpoints} {held : EpId → Nat} (h : Ledger s [] queued) (hsame : SameStations s s1)
    (hheap : s1.heap = s.heap) (ht : Tallied s1 (fun x => namings queued x + held x) queued)
    (hz : ∀ x, s.station x = none → held x = 0) : Ledger { s1 with held := held } [] queued := by
  refine ⟨⟨ht.counted, ht.queue, ht.level⟩, hheap ▸ h.heap, h.distinct, fun m hm => ?_, fun m hm f hf => ?_, h.acked,
    fun x hx => hz x ?_⟩
  · exact hsame.station m.mTo ▸ h.target m hm
  · exact hsame.station f ▸ h.source m hm f hf
  · exact hsame.station x ▸ hx

theorem referenceEndpoint_served (h : Ledger s [] queued) (hs : s.serve (.reference ep) = some (s', out)) :
    Served s queued (.reference ep) s' queued out ∧ Ledger s' [] queued := by
  obtain ⟨s1, hr, he⟩ := Option.map_eq_some_iff.mp hs
  cases he
  obtain ⟨e, he, -⟩ := Option.map_eq_some_iff.mp hr
  have hlive : (s.station ep).isSome := by rw [Endpoints.station_of_store he]; rfl
  obtain ⟨s1', hr', hsame, hheap, ht⟩ := referenceEndpoint_spec h.tally hlive
  cases hr'.symm.trans hr
  refine ⟨.held (funext hsame.station) hsame.first hsame.walk nofun, h.setHeld hsame hheap ?_ fun x hx => ?_⟩
  · refine ht.congr fun x => ?_
    rw [hsame.held, List.nil_append]
    by_cases hx : x = ep
    · subst hx
      rw [update_self, if_pos rfl]
      omega
    · rw [update_of_ne hx, if_neg (Ne.symm hx), Nat.add_zero]
  · rw [hsame.held]
    by_cases hxe : x = ep
    · subst hxe
      rw [hx] at hlive
      cases hlive
    · rw [update_of_ne hxe]
      exact h.unheld x hx

theorem forgetEndpoint_served (h : Ledger s [] queued) (hs : s.serve (.forget ep) = some (s', out)) :
    Served s queued (.forget ep) s' queued out ∧ Ledger s' [] queued := by
  obtain ⟨hheld, hs⟩ := Option.ite_none_right_eq_some.mp hs
  obtain ⟨s1, hr, he⟩ := Option.map_eq_some_iff.mp hs
  cases he
  obtain ⟨e, he, -⟩ := Option.bind_eq_some_iff.mp hr
  have hlive : (s.station ep).isSome := by rw [Endpoints.station_of_store he]; rfl
  have htally : Tallied s (fun x => (namings queued x + update s.held ep (s.held ep - 1) x) +
      if ep = x then 1 else 0) queued := h.tally.congr fun x => by
    rw [List.nil_append]
    by_cases hx : x = ep
    · subst hx
      rw [update_self, if_pos rfl]
      omega
    · rw [update_of_ne hx, if_neg (Ne.symm hx), Nat.add_zero]
  obtain ⟨s1', hr', hsame, hheap, ht⟩ := forgetEndpoint_spec htally hlive
  cases hr'.symm.trans hr
  refine ⟨.held (funext hsame.station) hsame.first hsame.walk nofun, h.setHeld hsame hheap ?_ fun x hx => ?_⟩
  · rw [hsame.held]
    exact ht
  · rw [hsame.held]
    by_cases hxe : x = ep
    · subst hxe
      rw [update_self, h.unheld x hx]
    · rw [update_of_ne hxe]
      exact h.unheld x hx

theorem serve_spec {c : EndpointCall} (h : Ledger s [] queued) (hs : s.serve c = some (s', out)) :
    ∃ queued', Served s queued c s' queued' out ∧ Ledger s' [] queued' := by
  cases c with
  | create wake fast ep =>
    obtain ⟨s1, h1, he⟩ := Option.map_eq_some_iff.mp hs
    cases he
    exact ⟨queued, createEndpoint_spec h h1⟩
  | send source target px ack address =>
    obtain ⟨⟨r, s1, out1⟩, h1, he⟩ := Option.map_eq_some_iff.mp hs
    cases he
    obtain ⟨hsame, ⟨hrx, -, rfl, hledger⟩ | ⟨hrx, -, rfl, hledger⟩⟩ := sendMessage_spec h h1
    · exact ⟨_, .sent hsame hrx, hledger⟩
    · exact ⟨_, .unsent hsame hrx, hledger⟩
  | reference ep => exact ⟨queued, referenceEndpoint_served h hs⟩
  | forget ep => exact ⟨queued, forgetEndpoint_served h hs⟩
  | closeReceiving ep =>
    obtain ⟨s1, h1, he⟩ := Option.map_eq_some_iff.mp hs
    cases he
    obtain ⟨e, he, h1⟩ := Option.bind_eq_some_iff.mp h1
    obtain ⟨hup, h1⟩ := Option.ite_none_right_eq_some.mp h1
    obtain rfl := Option.some.inj h1
    exact ⟨queued, .closed (Endpoints.station_of_store he) hup (Bool.false_le _) le_rfl (s.put_station ep _) rfl rfl
      nofun, h.setStation he _⟩
  | closeSending ep =>
    obtain ⟨s1, h1, he⟩ := Option.map_eq_some_iff.mp hs
    cases he
    obtain ⟨e, he, h1⟩ := Option.bind_eq_some_iff.mp h1
    obtain ⟨hup, h1⟩ := Option.ite_none_right_eq_some.mp h1
    obtain rfl := Option.some.inj h1
    exact ⟨queued, .closed (Endpoints.station_of_store he) hup le_rfl (Bool.false_le _) (s.put_station ep _) rfl rfl
      nofun, h.setStation he _⟩
  | release ep =>
    obtain ⟨e, he, h1⟩ := Option.bind_eq_some_iff.mp hs
    obtain ⟨hup, -⟩ := Option.ite_none_right_eq_some.mp h1
    have hs' : s.releaseEndpoint ep = some (s', out) := hs
    obtain ⟨s1, hr, hstation, hfirst, -, hwalk, hledger⟩ := releaseEndpoint_spec h he hup
    cases hr.symm.trans hs'
    exact ⟨_, .released (Endpoints.station_of_store he) hup hstation hfirst hwalk, hledger⟩

end

section

open Function

variable {s s' : Endpoints} {queued queued' : List EpMessage} {ep : EpId} {ex : Option EpId} {m : EpMessage}
  {r : KatcpResult} {out : List EndpointEvent}

/-- Only an endpoint that is up and has a wake function receives, and messages wait at such ones. -/
structure Open (s : Endpoints) (queued : List EpMessage) : Prop where
  down : ∀ ep st, s.station ep = some st → st.eUp = false → st.gone = true
  receiver : ∀ ep st, s.station ep = some st → st.eRx = true → st.eUp = true ∧ st.eWake = true
  reached : ∀ m ∈ queued, ∀ st, s.station m.mTo = some st → st.eUp = true ∧ st.eWake = true

/-- The reply to a message whose wake function returns this. -/
def Endpoints.outcome (s : Endpoints) (m : EpMessage) : KatcpResult → Option EpMessage
  | .done code => s.answer m code none
  | _ => none

def KatcpResult.keeps : KatcpResult → Bool
  | .pause => true
  | .yield => true
  | _ => false

/-- The stations once an endpoint has been unlinked. -/
def Endpoints.without (s : Endpoints) (ex : Option EpId) (ep : EpId) (st : Station) : EpId → Option Station :=
  match ex with
  | some x => update (update s.station x ((s.station x).map fun f => { f with eNext := st.eNext })) ep none
  | none => update s.station ep none

theorem without_station {st st' : Station} {x : EpId} (h : s.without ex ep st x = some st') :
    x ≠ ep ∧ ∃ st0, s.station x = some st0 ∧ ∃ en, st' = { st0 with eNext := en } := by
  unfold Endpoints.without at h
  have hne : x ≠ ep := by
    rintro rfl
    cases ex <;> simp at h
  refine ⟨hne, ?_⟩
  cases ex with
  | none =>
    dsimp only at h
    rw [update_of_ne hne] at h
    exact ⟨st', h, st'.eNext, rfl⟩
  | some y =>
    dsimp only at h
    rw [update_of_ne hne] at h
    by_cases hy : x = y
    · subst hy
      rw [update_self] at h
      obtain ⟨st0, h0, he⟩ := Option.map_eq_some_iff.mp h
      exact ⟨st0, h0, st.eNext, he.symm⟩
    · rw [update_of_ne hy] at h
      exact ⟨st', h, st'.eNext, rfl⟩

theorem without_isSome {x : EpId} (hne : x ≠ ep) (st : Station) :
    (s.without ex ep st x).isSome = (s.station x).isSome := by
  unfold Endpoints.without
  cases ex with
  | none =>
    dsimp only
    rw [update_of_ne hne]
  | some y =>
    dsimp only
    rw [update_of_ne hne]
    by_cases hy : x = y
    · subst hy
      rw [update_self, Option.isSome_map]
    · rw [update_of_ne hy]

/-- What `run_endpoints_katcp` does to the endpoints and the messages that are queued. -/
inductive Walked (s : Endpoints) (queued : List EpMessage) :
    EndpointAction → Endpoints → List EpMessage → List EndpointEvent → Prop
  | begun : s.walk = .idle → Walked s queued .advance { s with walk := .visit none s.sEndpoints } queued []
  | ended {ex : Option EpId} : s.walk = .visit ex none → Walked s queued .advance { s with walk := .idle } queued []
  | came {ex : Option EpId} {ep : EpId} {st : Station} : s.walk = .visit ex (some ep) → s.station ep = some st →
      Walked s queued .advance { s with walk := if st.eUp then .poll ex ep else .settle ex ep } queued []
  | drained {ex : Option EpId} {ep : EpId} : s.walk = .poll ex ep → queuedAt queued ep = [] →
      Walked s queued .advance { s with walk := .settle ex ep } queued []
  | woken {ex : Option EpId} {ep : EpId} {m : EpMessage} {rest : List EpMessage} : s.walk = .poll ex ep →
      queuedAt queued ep = m :: rest →
      Walked s queued .advance { s with walk := .waking ex ep m } queued [.woken ep m]
  | kept {ex : Option EpId} {ep : EpId} {m : EpMessage} {r : KatcpResult} {s' : Endpoints} :
      s.walk = .waking ex ep m → r.keeps = true → s'.station = s.station → s'.sEndpoints = s.sEndpoints →
      s'.walk = .settle ex ep → Walked s queued (.wakeReturns r) s' queued [.returned ep m r]
  | taken {ex : Option EpId} {ep : EpId} {m : EpMessage} {r : KatcpResult} {s' : Endpoints} :
      s.walk = .waking ex ep m → r.keeps = false → m ∈ queuedAt queued ep → s'.station = s.station →
      s'.sEndpoints = s.sEndpoints → (s'.walk = .poll ex ep ∨ s'.walk = .settle ex ep) →
      Walked s queued (.wakeReturns r) s' (queued.erase m ++ (s.outcome m r).toList)
        (.returned ep m r :: (s.outcome m r).toList.map (.replied m ·))
  | passed {ex : Option EpId} {ep : EpId} {st : Station} : s.walk = .settle ex ep → s.station ep = some st →
      Walked s queued .advance { s with walk := .visit (some ep) st.eNext } queued []
  | collected {ex : Option EpId} {ep : EpId} {st : Station} {s' : Endpoints} : s.walk = .settle ex ep →
      s.station ep = some st → st.gone = true → namings queued ep = 0 → s.held ep = 0 →
      s'.station = s.without ex ep st → s'.sEndpoints = (if ex.isSome then s.sEndpoints else st.eNext) →
      s'.walk = .visit ex st.eNext → Walked s queued .advance s' queued []

/-- Only a message that is still queued is taken, and then it is out of the queue of the endpoint. -/
theorem takeMessage_takes (h : Ledger s [] queued) (hs : s.takeMessage ep m = some s') :
    m ∈ queuedAt queued ep ∧ m.mTo = ep ∧ SameStations s s' ∧ Ledger s' [m] (queued.erase m) := by
  have hm : m ∈ queuedAt queued ep := by
    by_contra hm
    rw [takeMessage_none h hm] at hs
    cases hs
  obtain ⟨hin, hto⟩ := List.mem_filter.mp hm
  obtain rfl : m.mTo = ep := by simpa using hto
  obtain ⟨s1, h1, hsame, hledger⟩ := takeMessage_spec h hin
  cases h1.symm.trans hs
  exact ⟨hm, rfl, hsame, hledger⟩

/-- The stations stay as they are while a message is finished with. -/
theorem finishMessage_spec {more : Bool} (h : Ledger s [] queued) (hlive : (s.station ep).isSome)
    (hs : s.finishMessage ep m r = some (more, s', out)) :
    SameStations s s' ∧
      ((r.keeps = true ∧ more = false ∧ out = [] ∧ Ledger s' [] queued) ∨
        (r.keeps = false ∧ m ∈ queuedAt queued ep ∧ out = (s.outcome m r).toList.map (.replied m ·) ∧
          Ledger s' [] (queued.erase m ++ (s.outcome m r).toList))) := by
  cases r with
  | own =>
    obtain ⟨s1, h1, hs⟩ := Option.bind_eq_some_iff.mp hs
    obtain ⟨s2, h2, hs⟩ := Option.bind_eq_some_iff.mp hs
    obtain ⟨s3, h3, he⟩ := Option.map_eq_some_iff.mp hs
    cases he
    obtain ⟨hm, rfl, hsame1, hledger1⟩ := takeMessage_takes h h1
    obtain ⟨s2', h2', hsame2, hledger2⟩ := destroyMessage_spec hledger1
    cases h2'.symm.trans h2
    have hlive2 : (s2.station m.mTo).isSome := by
      rw [(hsame1.trans hsame2).station]
      exact hlive
    obtain ⟨s3', h3', hsame3, hledger3⟩ := hledger2.precedence hlive2
    cases h3'.symm.trans h3
    exact ⟨(hsame1.trans hsame2).trans hsame3, .inr ⟨rfl, hm, rfl, by simpa [Endpoints.outcome] using hledger3⟩⟩
  | pause =>
    obtain ⟨s1, h1, he⟩ := Option.map_eq_some_iff.mp hs
    cases he
    obtain ⟨s1', h1', hsame, hledger⟩ := h.precedence hlive
    cases h1'.symm.trans h1
    exact ⟨hsame, .inl ⟨rfl, rfl, rfl, hledger⟩⟩
  | yield =>
    cases Option.some.inj hs
    exact ⟨.refl _, .inl ⟨rfl, rfl, rfl, h⟩⟩
  | done code =>
    obtain ⟨s1, h1, hs⟩ := Option.bind_eq_some_iff.mp hs
    obtain ⟨⟨s2, out2⟩, h2, he⟩ := Option.map_eq_some_iff.mp hs
    cases he
    obtain ⟨hm, rfl, hsame1, hledger1⟩ := takeMessage_takes h h1
    obtain ⟨s2', h2', hsame2, hledger2⟩ := closeMessage_spec hledger1 code none
    rw [hsame1.answer] at h2' hledger2
    cases h2'.symm.trans h2
    exact ⟨hsame1.trans hsame2, .inr ⟨rfl, hm, rfl, hledger2⟩⟩

theorem wakeReturns_spec (h : Ledger s [] queued) (hs : s.wakeReturns r = some (s', out))
    (hlive : ∀ ex ep m, s.walk = .waking ex ep m → (s.station ep).isSome) :
    ∃ queued', Walked s queued (.wakeReturns r) s' queued' out ∧ Ledger s' [] queued' := by
  unfold Endpoints.wakeReturns at hs
  split at hs
  next ex ep m hwalk =>
    obtain ⟨⟨more, s1, out1⟩, h1, hs⟩ := Option.bind_eq_some_iff.mp hs
    obtain ⟨e, -, he⟩ := Option.map_eq_some_iff.mp hs
    cases he
    obtain ⟨hsame, ⟨hk, rfl, rfl, hledger⟩ | ⟨hk, hm, rfl, hledger⟩⟩ :=
      finishMessage_spec h (hlive ex ep m hwalk) h1
    · refine ⟨queued, .kept hwalk hk (funext hsame.station) hsame.first ?_, hledger.setWalk⟩
      simp
    · refine ⟨_, .taken hwalk hk hm (funext hsame.station) hsame.first ?_, hledger.setWalk⟩
      dsimp only
      split
      · exact .inl rfl
      · exact .inr rfl
  next => cases hs

theorem pollEndpoint_spec (h : Ledger s [] queued) (ho : Open s queued) (hwalk : s.walk = .poll ex ep)
    (hs : s.pollEndpoint ex ep = some (s', out)) :
    Walked s queued .advance s' queued out ∧ Ledger s' [] queued := by
  obtain ⟨e, he, hs⟩ := Option.bind_eq_some_iff.mp hs
  have hhead : getPrecedenceHeadGueue e.eQueue e.ePrecedence = some (queuedAt queued ep).head? := by
    rw [h.tally.level ep e he]
    refine (getPrecedenceHeadGueue_spec (h.tally.queue ep e he) 0).trans ?_
    change some ((queuedAt queued ep).find? fun x => 0 ≤ computePrecedenceEndpoint x) = _
    cases queuedAt queued ep <;> rfl
  rw [hhead, Option.bind_some] at hs
  cases hq : queuedAt queued ep with
  | nil =>
    rw [hq] at hs
    cases Option.some.inj hs
    exact ⟨.drained hwalk hq, h.setWalk⟩
  | cons m rest =>
    have hin : m ∈ queuedAt queued ep := by rw [hq]; exact List.mem_cons_self ..
    obtain ⟨hm, hto⟩ := List.mem_filter.mp hin
    have hto : m.mTo = ep := by simpa using hto
    have hwake : e.eWake = true := (ho.reached m hm _ (by rw [hto]; exact Endpoints.station_of_store he)).2
    rw [hq, List.head?_cons] at hs
    dsimp only at hs
    rw [if_neg (by simpa using hto), if_pos hwake] at hs
    cases Option.some.inj hs
    exact ⟨.woken hwalk hq, h.setWalk⟩

/-- The memory of an endpoint that nothing refers to is given back. -/
theorem Ledger.free (h : Ledger s [] queued) (hz : namings queued ep = 0) (hheld : s.held ep = 0) :
    Ledger (s.put ep none) [] queued := by
  have hother : ∀ x, x ≠ ep → (s.put ep none).station x = s.station x := fun x hx => by
    rw [Endpoints.station, Endpoints.put_store, update_of_ne hx]
    rfl
  have hstore : ∀ x e, (s.put ep none).store x = some e → s.store x = some e := fun x e hx => by
    rw [Endpoints.put_store] at hx
    by_cases hxe : x = ep
    · subst hxe
      rw [update_self] at hx
      cases hx
    · rwa [update_of_ne hxe] at hx
  have hunnamed := namings_eq_zero.mp hz
  refine ⟨⟨fun x e hx => ?_, fun x e hx => ?_, fun x e hx => ?_⟩, h.heap, h.distinct, fun m hm => ?_,
    fun m hm f hf => ?_, h.acked, fun x hx => ?_⟩
  · exact h.tally.counted x e (hstore x e hx)
  · exact h.tally.queue x e (hstore x e hx)
  · exact h.tally.level x e (hstore x e hx)
  · rw [hother _ (hunnamed m hm).2]
    exact h.target m hm
  · obtain ⟨hlive, hne⟩ := h.source m hm f hf
    refine ⟨?_, hne⟩
    rw [hother f fun he => (hunnamed m hm).1 (he ▸ hf)]
    exact hlive
  · by_cases hxe : x = ep
    · rw [hxe]
      exact hheld
    · rw [hother x hxe] at hx
      exact h.unheld x hx

theorem settleEndpoint_spec (h : Ledger s [] queued) (hwalk : s.walk = .settle ex ep)
    (hs : s.settleEndpoint ex ep = some s') :
    Walked s queued .advance s' queued [] ∧ Ledger s' [] queued := by
  obtain ⟨e, he, hs⟩ := Option.bind_eq_some_iff.mp hs
  have hst := Endpoints.station_of_store he
  split at hs
  next hgone =>
    obtain ⟨hgone, href⟩ := hgone
    obtain ⟨s1, hunlink, hs⟩ := Option.bind_eq_some_iff.mp hs
    obtain ⟨-, hs⟩ := Option.ite_none_left_eq_some.mp hs
    obtain rfl := Option.some.inj hs
    have hcount := h.tally.counted ep e he
    rw [href, List.nil_append] at hcount
    have hz : namings queued ep = 0 := by omega
    have hheld : s.held ep = 0 := by omega
    have hfree : ∀ t : Endpoints, (t.put ep none).station = update t.station ep none := fun t => by
      funext x
      rw [Endpoints.station, Endpoints.put_store]
      by_cases hx : x = ep
      · subst hx
        rw [update_self, update_self]
        rfl
      · rw [update_of_ne hx, update_of_ne hx]
        rfl
    cases ex with
    | none =>
      obtain rfl := Option.some.inj hunlink
      refine ⟨.collected hwalk hst hgone hz hheld (hfree _) rfl rfl, Ledger.setWalk (Ledger.free ?_ hz hheld)⟩
      exact ⟨⟨h.tally.counted, h.tally.queue, h.tally.level⟩, h.heap, h.distinct, h.target, h.source, h.acked, h.unheld⟩
    | some x =>
      obtain ⟨f, hf, rfl⟩ := Option.map_eq_some_iff.mp hunlink
      refine ⟨.collected hwalk hst hgone hz hheld ?_ rfl rfl, Ledger.setWalk ((h.setStation hf _).free hz hheld)⟩
      refine (hfree _).trans ?_
      rw [Endpoints.put_station, Endpoints.without, Endpoints.station_of_store hf]
      rfl
  next =>
    obtain rfl := Option.some.inj hs
    exact ⟨.passed hwalk hst, h.setWalk⟩

theorem advance_spec (h : Ledger s [] queued) (ho : Open s queued) (hs : s.advance = some (s', out)) :
    Walked s queued .advance s' queued out ∧ Ledger s' [] queued := by
  unfold Endpoints.advance at hs
  split at hs
  next hwalk =>
    cases Option.some.inj hs
    exact ⟨.begun hwalk, h.setWalk⟩
  next hwalk =>
    cases Option.some.inj hs
    exact ⟨.ended hwalk, h.setWalk⟩
  next ex ep hwalk =>
    obtain ⟨e, he, hs⟩ := Option.map_eq_some_iff.mp hs
    cases hs
    exact ⟨.came hwalk (Endpoints.station_of_store he), h.setWalk⟩
  next ex ep hwalk => exact pollEndpoint_spec h ho hwalk hs
  next ex ep hwalk =>
    obtain ⟨s1, h1, he⟩ := Option.map_eq_some_iff.mp hs
    cases he
    exact settleEndpoint_spec h hwalk h1
  next => cases hs

/-- What an action does. -/
inductive Acted (s : Endpoints) (queued : List EpMessage) :
    EndpointAction → Endpoints → List EpMessage → List EndpointEvent → Prop
  | served {c : EndpointCall} {s' : Endpoints} {queued' : List EpMessage} {out : List EndpointEvent} :
      s.walk.lets = true → Served s queued c s' queued' out → Acted s queued (.call c) s' queued' out
  | walked {a : EndpointAction} {s' : Endpoints} {queued' : List EpMessage} {out : List EndpointEvent} :
      Walked s queued a s' queued' out → Acted s queued a s' queued' out

theorem act_spec {a : EndpointAction} (h : Ledger s [] queued) (ho : Open s queued)
    (hlive : ∀ ex ep m, s.walk = .waking ex ep m → (s.station ep).isSome) (hs : s.act a = some (s', out)) :
    ∃ queued', Acted s queued a s' queued' out ∧ Ledger s' [] queued' := by
  cases a with
  | call c =>
    obtain ⟨hlets, hs⟩ := Option.ite_none_right_eq_some.mp hs
    obtain ⟨queued', hserved, hledger⟩ := serve_spec h hs
    exact ⟨queued', .served hlets hserved, hledger⟩
  | advance =>
    obtain ⟨hwalked, hledger⟩ := advance_spec h ho hs
    exact ⟨queued, .walked hwalked, hledger⟩
  | wakeReturns r =>
    obtain ⟨queued', hwalked, hledger⟩ := wakeReturns_spec h hs hlive
    exact ⟨queued', .walked hwalked, hledger⟩

end

section

open Function LinkedPath

variable {s s' : Endpoints} {queued queued' : List EpMessage} {fresh visited rest : List EpId} {ep x : EpId}
  {ex p : Option EpId} {st : Station} {a : EndpointAction} {out : List EndpointEvent}

def Endpoints.next (s : Endpoints) (ep : EpId) : Option EpId := (s.station ep).bind Station.eNext

/-- The last endpoint that was kept, and the one that is next or under way. -/
def Walk.position : Walk → Option (Option EpId × Option EpId)
  | .idle => none
  | .visit ex ep => some (ex, ep)
  | .poll ex ep => some (ex, some ep)
  | .waking ex ep _ => some (ex, some ep)
  | .settle ex ep => some (ex, some ep)

/-- The list of endpoints: those that wake functions have made since the walk began, those it has
kept, and those it has not left yet. -/
structure WalkPlace (s : Endpoints) (fresh visited rest : List EpId) : Prop where
  path : Path s.next s.sEndpoints (fresh ++ visited ++ rest) none
  nodup : (fresh ++ visited ++ rest).Nodup
  live : ∀ x ∈ fresh ++ visited ++ rest, (s.station x).isSome
  position : ∀ ex p, s.walk.position = some (ex, p) → visited.getLast? = ex ∧ rest.head? = p

/-- Every endpoint is on the list, and none was made ahead of one that will be taken off as the
first. -/
structure Complete (s : Endpoints) (fresh visited rest : List EpId) : Prop where
  all : ∀ x, (s.station x).isSome → x ∈ fresh ++ visited ++ rest
  arriving : ∀ ex p, s.walk = .visit ex p → visited = [] → fresh = []
  polled : ∀ ex ep, (s.walk = .poll ex ep ∨ ∃ m, s.walk = .waking ex ep m) →
    ∃ st, s.station ep = some st ∧ st.eUp = true
  settling : ∀ ex ep, s.walk = .settle ex ep → visited = [] →
    fresh = [] ∨ ∃ st, s.station ep = some st ∧ st.eUp = true

/-- The wake function of an endpoint does not release it. -/
def OwnKept (s : Endpoints) (a : EndpointAction) : Prop :=
  ∀ ex ep m, s.walk = .waking ex ep m → a ≠ .call (.release ep)

theorem WalkPlace.here (h : WalkPlace s fresh visited rest) (hpos : s.walk.position = some (ex, some ep)) :
    ∃ more, rest = ep :: more ∧ (s.station ep).isSome := by
  obtain ⟨-, hhead⟩ := h.position _ _ hpos
  obtain ⟨more, hrest⟩ := List.head?_eq_some_iff.mp hhead
  exact ⟨more, hrest, h.live ep (by simp [hrest])⟩

/-- Nothing but flags and messages changes. -/
theorem WalkPlace.frame (h : WalkPlace s fresh visited rest) (hnext : ∀ x, s'.next x = s.next x)
    (hfirst : s'.sEndpoints = s.sEndpoints) (hlive : ∀ x, (s'.station x).isSome = (s.station x).isSome)
    (hpos : s'.walk.position = s.walk.position) : WalkPlace s' fresh visited rest := by
  refine ⟨?_, h.nodup, fun x hx => ?_, fun ex p he => h.position ex p (hpos ▸ he)⟩
  · rw [hfirst]
    exact h.path.congr fun x _ => hnext x
  · rw [hlive]
    exact h.live x hx

theorem WalkPlace.same (h : WalkPlace s fresh visited rest) (hstation : s'.station = s.station)
    (hfirst : s'.sEndpoints = s.sEndpoints) (hpos : s'.walk.position = s.walk.position) :
    WalkPlace s' fresh visited rest := by
  refine h.frame (fun x => ?_) hfirst (fun x => ?_) hpos
  · rw [Endpoints.next, hstation, Endpoints.next]
  · rw [hstation]

/-- A station changes, but not where it leads to. -/
theorem WalkPlace.update {st' : Station} (h : WalkPlace s fresh visited rest) (hst : s.station ep = some st)
    (hstation : s'.station = update s.station ep (some st')) (hn : st'.eNext = st.eNext)
    (hfirst : s'.sEndpoints = s.sEndpoints) (hpos : s'.walk.position = s.walk.position) :
    WalkPlace s' fresh visited rest := by
  refine h.frame (fun x => ?_) hfirst (fun x => ?_) hpos
  all_goals
    by_cases hx : x = ep
    · subst hx
      simp [Endpoints.next, hstation, hst, hn]
    · simp [Endpoints.next, hstation, update_of_ne hx]

/-- An endpoint is put in front. -/
theorem WalkPlace.create {st' : Station} (h : WalkPlace s fresh visited rest) (hnone : s.station ep = none)
    (hn : st'.eNext = s.sEndpoints) (hstation : s'.station = Function.update s.station ep (some st'))
    (hfirst : s'.sEndpoints = some ep) (hpos : s'.walk = s.walk) : WalkPlace s' (ep :: fresh) visited rest := by
  have hnew : ∀ y ∈ fresh ++ visited ++ rest, y ≠ ep := by
    rintro y hy rfl
    have hlive := h.live y hy
    rw [hnone] at hlive
    cases hlive
  refine ⟨⟨hfirst, ?_⟩, List.nodup_cons.mpr ⟨fun hin => hnew ep hin rfl, h.nodup⟩, fun y hy => ?_, fun ex p he => ?_⟩
  · have hhead : s'.next ep = s.sEndpoints := by simp [Endpoints.next, hstation, hn]
    rw [hhead]
    refine h.path.congr fun y hy => ?_
    rw [Endpoints.next, hstation, update_of_ne (hnew y hy)]
    rfl
  · rw [hstation]
    rcases List.mem_cons.mp hy with rfl | hy
    · rw [update_self]
      rfl
    · rw [update_of_ne (hnew y hy)]
      exact h.live y hy
  · rw [hpos] at he
    exact h.position ex p he

theorem WalkPlace.begin (h : WalkPlace s fresh visited rest) :
    WalkPlace { s with walk := .visit none s.sEndpoints } [] [] (fresh ++ visited ++ rest) := by
  refine ⟨h.path, h.nodup, h.live, fun ex p he => ?_⟩
  cases Option.some.inj he
  exact ⟨rfl, h.path.head?⟩

theorem WalkPlace.finish (h : WalkPlace s fresh visited rest) : WalkPlace { s with walk := .idle } fresh visited rest :=
  ⟨h.path, h.nodup, h.live, nofun⟩

/-- The list behind the endpoint that the walk is at. -/
theorem WalkPlace.behind {more : List EpId} (h : WalkPlace s fresh visited (ep :: more)) :
    Path s.next s.sEndpoints (fresh ++ visited) (some ep) ∧ Path s.next (s.next ep) more none := by
  obtain ⟨c, h1, rfl, h2⟩ := path_append.mp h.path
  exact ⟨h1, h2⟩

theorem WalkPlace.pass {more : List EpId} (h : WalkPlace s fresh visited (ep :: more)) (hst : s.station ep = some st) :
    WalkPlace { s with walk := .visit (some ep) st.eNext } fresh (visited ++ [ep]) more := by
  have hlist : fresh ++ (visited ++ [ep]) ++ more = fresh ++ visited ++ ep :: more := by simp
  refine ⟨?_, ?_, ?_, fun ex p he => ?_⟩
  · rw [hlist]
    exact h.path
  · rw [hlist]
    exact h.nodup
  · rw [hlist]
    exact h.live
  · cases Option.some.inj he
    refine ⟨List.getLast?_concat .., ?_⟩
    have hnext : s.next ep = st.eNext := by rw [Endpoints.next, hst]; rfl
    rw [← hnext]
    exact h.behind.2.head?

/-- The endpoint that the walk is at is taken off the list, and with it what was made ahead of the
first one. -/
theorem WalkPlace.collect {more : List EpId} (h : WalkPlace s fresh visited (ep :: more)) (hex : visited.getLast? = ex)
    (hst : s.station ep = some st) (hstation : s'.station = s.without ex ep st)
    (hfirst : s'.sEndpoints = if ex.isSome then s.sEndpoints else st.eNext) (hwalk : s'.walk = .visit ex st.eNext) :
    WalkPlace s' (if visited = [] then [] else fresh) visited more := by
  have hnext : s.next ep = st.eNext := by rw [Endpoints.next, hst]; rfl
  obtain ⟨hfront, hback⟩ := h.behind
  rw [hnext] at hback
  have hout : ∀ y ∈ fresh ++ visited ++ more, y ≠ ep := by
    rintro y hy rfl
    have hnodup := h.nodup
    rw [List.nodup_middle] at hnodup
    exact (List.nodup_cons.mp hnodup).1 hy
  have hsub : (fresh ++ visited ++ more).Sublist (fresh ++ visited ++ ep :: more) :=
    (List.sublist_cons_self ..).append_left _
  have hstay : ∀ y, y ≠ ep → (s'.station y).isSome = (s.station y).isSome ∧ (some y ≠ ex → s'.next y = s.next y) := by
    intro y hy
    rw [Endpoints.next, hstation]
    unfold Endpoints.without
    cases ex with
    | none => simp [update_of_ne hy, Endpoints.next]
    | some x =>
      dsimp only
      rw [update_of_ne hy]
      by_cases hyx : y = x
      · subst hyx
        simp
      · simp [update_of_ne hyx, Endpoints.next]
  have hhead : more.head? = st.eNext := hback.head?
  have hposition : ∀ ex' p, s'.walk.position = some (ex', p) → visited.getLast? = ex' ∧ more.head? = p := by
    intro ex' p he
    rw [hwalk] at he
    cases Option.some.inj he
    exact ⟨hex, hhead⟩
  rcases List.eq_nil_or_concat visited with rfl | ⟨v, x, rfl⟩
  · obtain rfl : ex = none := hex.symm
    have hmore : ∀ y ∈ more, y ∈ fresh ++ [] ++ more := fun y hy => List.mem_append_right _ hy
    refine ⟨?_, (h.nodup.sublist hsub).of_append_right, fun y hy => ?_, hposition⟩
    · rw [hfirst]
      exact hback.congr fun y hy => (hstay y (hout y (hmore y hy))).2 nofun
    · rw [(hstay y (hout y (hmore y hy))).1]
      exact h.live y (hsub.subset (hmore y hy))
  · obtain rfl : ex = some x := by simpa using hex.symm
    rw [if_neg (by simp)]
    have hlist : fresh ++ v.concat x = fresh ++ v ++ [x] := by simp
    have hkeep : ∀ y ∈ fresh ++ v, s'.next y = s.next y := fun y hy => by
      refine (hstay y (hout y ?_)).2 ?_
      · rw [hlist]
        exact List.mem_append_left _ (List.mem_append_left _ hy)
      · intro he
        obtain rfl := Option.some.inj he
        have hnodup := (h.nodup.sublist hsub).of_append_left
        rw [hlist] at hnodup
        exact (List.disjoint_of_nodup_append hnodup) hy (List.mem_singleton_self y)
    have hlast : s'.next x = st.eNext := by
      have hx : x ≠ ep := hout x (by simp)
      have hlive := h.live x (by simp)
      obtain ⟨f, hf⟩ := Option.isSome_iff_exists.mp hlive
      rw [Endpoints.next, hstation]
      unfold Endpoints.without
      dsimp only
      rw [update_of_ne hx, update_self, hf]
      rfl
    refine ⟨?_, h.nodup.sublist hsub, fun y hy => ?_, hposition⟩
    · rw [hfirst, hlist]
      change Path s'.next s.sEndpoints _ _
      rw [hlist] at hfront
      refine path_append.mpr ⟨st.eNext, hfront.relink hkeep hlast, hback.congr fun y hy => ?_⟩
      refine (hstay y (hout y (List.mem_append_right _ hy))).2 ?_
      intro he
      obtain rfl := Option.some.inj he
      exact (List.disjoint_of_nodup_append (h.nodup.sublist hsub)) (by simp) hy
    · rw [(hstay y (hout y hy)).1]
      exact h.live y (hsub.subset hy)

end

end Katcp
