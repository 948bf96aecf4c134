import Katcp.Machine
import Katcp.NoticeQueue
import Katcp.SwapVector
import Mathlib.Data.List.Count
import Mathlib.Data.List.Nodup
import Mathlib.Logic.Function.Basic

namespace Katcp

section

open SwapVector

abbrev ClientId := Nat

abbrev CallId := Nat

abbrev DataId := Nat

structure Subscriber where
  vClient : ClientId
  vCall : CallId
  vData : DataId
deriving DecidableEq

/-- `katcp_invoke` -/
structure Invoke extends Subscriber where
  vTrigger : Bool
deriving DecidableEq

/-- A notice with those who wait for it: `nTrigger` with `nSingle` is
`KATCP_NOTICE_TRIGGER_SINGLE`, without it `KATCP_NOTICE_TRIGGER_ALL`. -/
structure SharedNotice extends Notice where
  nVector : List Invoke
  nSingle : Bool

/-- Where `run_notices_katcp` is with a triggered notice. In a call, `moved` says that the vector
was reallocated since it began. -/
structure NoticeRound where
  id : NoticeId
  single : Bool
  limit : Nat
  k : Nat
  calling : Bool
  moved : Bool

/-- A run of `run_notices_katcp` that has come to the notice at `position`. -/
structure NoticeRun where
  position : Nat
  round : Option NoticeRound

/-- The notices of `katcp_shared`, and those each client is listed with. -/
structure Notices where
  sNotices : List NoticeId
  store : NoticeId → Option SharedNotice
  fresh : NoticeId
  dNotices : ClientId → List NoticeId
  run : Option NoticeRun

def noNotices : Notices := ⟨[], fun _ => none, 0, fun _ => [], none⟩

namespace SharedNotice

def setParse (n : SharedNotice) (p : Option Words) : SharedNotice :=
  match p with
  | some p => { n with toNotice := n.toNotice.setParse p }
  | none => { n with nQueue := n.nQueue.clear }

def addParse (n : SharedNotice) (p : Words) : SharedNotice :=
  { n with toNotice := n.toNotice.addParse p }

/-- `trigger_notice_katcp` -/
def triggerAll (n : SharedNotice) : SharedNotice := { n with nTrigger := true, nSingle := false }

def triggerSingle (n : SharedNotice) (data : DataId) : SharedNotice :=
  { n with
    nTrigger := true
    nSingle := true
    nVector := n.nVector.map fun v => if v.vData = data then { v with vTrigger := true } else v }

/-- `notice_compact_notice_katcp`: the entry that moves takes on the mark of the one it replaces. -/
def noticeCompact (n : SharedNotice) (d : ClientId) : SharedNotice :=
  { n with
    nVector := compact (fun x y => { y with vTrigger := x.vTrigger }) (fun v => v.vClient = d) n.nVector }

end SharedNotice

/-- The comparison in `remove_notice_katcp`, where the call may be `NULL`. -/
def Invoke.matches (v : Invoke) (call : Option CallId) (data : DataId) : Bool :=
  v.vData = data && (call.isNone || call = some v.vCall)

/-- `dispatch_compact_notice_katcp` -/
def dispatchCompact (links : List NoticeId) (id : NoticeId) : List NoticeId :=
  compact (fun _ y => y) (fun link => link = id) links

/-- The vector of this notice was reallocated. -/
def NoticeRun.moved (r : NoticeRun) (id : NoticeId) : NoticeRun :=
  { r with round := r.round.map fun x => { x with moved := x.moved || x.id = id } }

namespace Notices

def putNotice (s : Notices) (id : NoticeId) (n : SharedNotice) : Notices :=
  { s with store := Function.update s.store id (some n) }

def onNotice (s : Notices) (id : NoticeId) (f : SharedNotice → SharedNotice) : Option Notices :=
  (s.store id).map fun n => s.putNotice id (f n)

/-- The entry at `i` is taken out, and its client no longer lists the notice. -/
def dropEntry (s : Notices) (id : NoticeId) (n : SharedNotice) (i : Nat) (v : Invoke) : Notices :=
  { s.putNotice id { n with nVector := removeAt n.nVector i } with
    dNotices := Function.update s.dNotices v.vClient (dispatchCompact (s.dNotices v.vClient) id) }

end Notices

/-- `create_parse_notice_katcp`: a notice with this name is used again. -/
def createSharedNotice (s : Notices) (name : Option Text) (p : Option Words) : Notices :=
  match name.bind fun name => s.sNotices.find? fun id => (s.store id).any fun n => n.nName = some name with
  | some id => (p.bind fun p => s.onNotice id (·.addParse p)).getD s
  | none =>
    let n : SharedNotice := { freshNotice name with nVector := [], nSingle := false }
    { s with
      sNotices := s.sNotices ++ [s.fresh]
      store := Function.update s.store s.fresh (some ((p.map n.addParse).getD n))
      fresh := s.fresh + 1 }

def addNotice (s : Notices) (d : ClientId) (id : NoticeId) (call : CallId) (data : DataId) :
    Option Notices :=
  (s.store id).map fun n =>
    if n.nVector.any fun v => v.vCall = call && v.vData = data then s
    else
      { s.putNotice id { n with nVector := n.nVector ++ [⟨⟨d, call, data⟩, false⟩] } with
        dNotices := Function.update s.dNotices d (s.dNotices d ++ [id])
        run := s.run.map (·.moved id) }

/-- The entry `remove_notice_katcp` takes, and where it is. -/
def findEntry (n : SharedNotice) (call : Option CallId) (data : DataId) : Option (Nat × Invoke) :=
  (n.nVector.findIdx? (·.matches call data)).bind fun i => (n.nVector[i]?).map (i, ·)

def removeNotice (s : Notices) (id : NoticeId) (call : Option CallId) (data : DataId) : Option Notices :=
  (s.store id).map fun n =>
    match findEntry n call data with
    | none => s
    | some (i, v) => s.dropEntry id n i v

/-- `disown_notices_katcp`, which takes the list of the client from its end. -/
def disownNotices (s : Notices) (d : ClientId) : Option Notices :=
  ((s.dNotices d).reverse.foldlM (fun (t : Notices) id => t.onNotice id (·.noticeCompact d)) s).map
    fun t => { t with dNotices := Function.update t.dNotices d [] }

/-- `run_notices_katcp` is done with this notice: it goes if nobody waits for it or holds it. -/
def Notices.leaveNotice (s : Notices) (i : Nat) (id : NoticeId) (n : SharedNotice) : Notices :=
  if n.nVector = [] ∧ n.nUse = 0 then
    { s with
      sNotices := s.sNotices.eraseIdx i
      store := Function.update s.store id none
      run := some ⟨i, none⟩ }
  else { s.putNotice id n with run := some ⟨i + 1, none⟩ }

def visitNotice (s : Notices) (i : Nat) : Option Notices :=
  match s.sNotices[i]? with
  | none => some { s with run := none }
  | some id => (s.store id).map fun n =>
    if n.nTrigger then
      { s.putNotice id { n with toNotice := { n.toNotice.nextParse with nTrigger := false } } with
        run := some ⟨i, some ⟨id, n.nSingle, n.nQueue.count, 0, false, false⟩⟩ }
    else s.leaveNotice i id n

/-- The message after one that everyone was called with. -/
def SharedNotice.turnParse (n : SharedNotice) (limit : Nat) : SharedNotice :=
  if 1 < limit then { n with toNotice := n.toNotice.nextParse } else { n with nParse := none }

def endRound (s : Notices) (i : Nat) (r : NoticeRound) (n : SharedNotice) : Notices :=
  if (n.turnParse r.limit).nParse.isSome then
    { s.putNotice r.id (n.turnParse r.limit) with
      run := some ⟨i, some { r with limit := r.limit - 1, k := 0 }⟩ }
  else s.leaveNotice i r.id (n.turnParse r.limit)

/-- Who is called next. -/
def due (n : SharedNotice) (r : NoticeRound) : Option Invoke :=
  (n.nVector[r.k]?).filter fun v => v.vTrigger || !r.single

def stepRound (s : Notices) (i : Nat) (r : NoticeRound) : Option Notices :=
  if r.calling then none
  else (s.store r.id).map fun n =>
    match due n r with
    | some v =>
      { s.putNotice r.id { n with nVector := n.nVector.set r.k { v with vTrigger := false } } with
        run := some ⟨i, some { r with calling := true, moved := false }⟩ }
    | none =>
      if r.k < n.nVector.length then { s with run := some ⟨i, some { r with k := r.k + 1 }⟩ }
      else endRound s i r n

/-- One turn of a loop of `run_notices_katcp`, up to the next call. -/
def advanceRun (s : Notices) : Option Notices :=
  match s.run with
  | none => none
  | some ⟨i, none⟩ => visitNotice s i
  | some ⟨i, some r⟩ => stepRound s i r

/-- What a call gives back. A result that is not positive ends the subscription of the entry where
the call was made, unless the vector was moved or has become too short, where the code reads
what is no longer its own. -/
def answerCall (s : Notices) (result : Int) : Option Notices :=
  match s.run with
  | some ⟨i, some r⟩ =>
    if !r.calling then none
    else if 0 < result then some { s with run := some ⟨i, some { r with k := r.k + 1, calling := false }⟩ }
    else if r.moved then none
    else (s.store r.id).bind fun n => (n.nVector[r.k]?).map fun v =>
      { s.dropEntry r.id n r.k v with run := some ⟨i, some { r with calling := false }⟩ }
  | _ => none

end

section

open SwapVector

inductive NoticeOp
  | create (name : Option Text) (p : Option Words)
  | add (d : ClientId) (id : NoticeId) (call : CallId) (data : DataId)
  | remove (id : NoticeId) (call : Option CallId) (data : DataId)
  | trigger (id : NoticeId)
  | triggerSingle (id : NoticeId) (data : DataId)
  | setParse (id : NoticeId) (p : Option Words)
  | addParse (id : NoticeId) (p : Words)
  | removeParse (id : NoticeId)
  | hold (id : NoticeId)
  | release (id : NoticeId)
  | disown (d : ClientId)

def noticeOp (s : Notices) : NoticeOp → Option Notices
  | .create name p => some (createSharedNotice s name p)
  | .add d id call data => addNotice s d id call data
  | .remove id call data => removeNotice s id call data
  | .trigger id => s.onNotice id (·.triggerAll)
  | .triggerSingle id data => s.onNotice id (·.triggerSingle data)
  | .setParse id p => s.onNotice id (·.setParse p)
  | .addParse id p => s.onNotice id (·.addParse p)
  | .removeParse id => s.onNotice id fun n => { n with toNotice := n.removeParse.2 }
  | .hold id => s.onNotice id fun n => { n with toNotice := n.hold }
  | .release id => s.onNotice id fun n => { n with toNotice := n.release }
  | .disown d => disownNotices s d

inductive NoticeAction
  | op (o : NoticeOp)
  | run
  | advance
  | answer (result : Int)

/-- Others have the processor: there is no run, or it is in a call. -/
def Notices.yielding (s : Notices) : Bool :=
  match s.run with
  | none => true
  | some r => r.round.any (·.calling)

def stepNotices (s : Notices) : NoticeAction → Option Notices
  | .op o => if s.yielding then noticeOp s o else none
  | .run => if s.run.isNone then some { s with run := some ⟨0, none⟩ } else none
  | .advance => advanceRun s
  | .answer result => answerCall s result

/-- A call of a subscriber, with the message it finds in the notice. -/
structure Called where
  id : NoticeId
  subscriber : Subscriber
  parse : Option Words
deriving DecidableEq

def calls (s : Notices) : NoticeAction → List Called
  | .advance =>
    match s.run.bind (·.round) with
    | none => []
    | some r => ((s.store r.id).bind fun n =>
        (due n r).map fun v => Called.mk r.id v.toSubscriber n.nParse).toList
  | _ => []

def noticeMachine : Machine Notices NoticeAction Called := ⟨noNotices, stepNotices, calls⟩

def Notices.subscribers (s : Notices) (id : NoticeId) : List Subscriber :=
  ((s.store id).map fun n => n.nVector.map (·.toSubscriber)).getD []

/-- How often the client is in the vector of the notice. -/
def Notices.subscriptions (s : Notices) (id : NoticeId) (d : ClientId) : Nat :=
  (s.subscribers id).countP (·.vClient = d)

/-- Each client lists a notice as often as the notice lists the client. -/
def LinksMatch (s : Notices) : Prop := ∀ id d, s.subscriptions id d = (s.dNotices d).count id

variable {s s' : Notices} {id k : NoticeId} {n m : SharedNotice} {d : ClientId}

theorem onNotice_some {f : SharedNotice → SharedNotice} (h : s.onNotice id f = some s') :
    ∃ n, s.store id = some n ∧ s' = s.putNotice id (f n) := by
  obtain ⟨n, hn, he⟩ := Option.map_eq_some_iff.mp h
  exact ⟨n, hn, he.symm⟩

theorem subscribers_some (hn : s.store id = some n) : s.subscribers id = n.nVector.map (·.toSubscriber) := by
  simp [Notices.subscribers, hn]

theorem subscribers_update (hs : s'.store = Function.update s.store id (some m)) (k : NoticeId) :
    s'.subscribers k = if k = id then m.nVector.map (·.toSubscriber) else s.subscribers k := by
  unfold Notices.subscribers
  rw [hs, Function.update_apply]
  split <;> rfl

/-- A step that leaves all subscribers and all lists alone. -/
theorem LinksMatch.frame (h : LinksMatch s) (hsub : ∀ k, s'.subscribers k = s.subscribers k)
    (hd : s'.dNotices = s.dNotices) : LinksMatch s' := by
  intro k d
  rw [Notices.subscriptions, hsub, hd]
  exact h k d

theorem LinksMatch.put (h : LinksMatch s) (hn : s.store id = some n)
    (hs : s'.store = Function.update s.store id (some m))
    (hm : m.nVector.map (·.toSubscriber) = n.nVector.map (·.toSubscriber))
    (hd : s'.dNotices = s.dNotices) : LinksMatch s' := by
  refine h.frame (fun k => ?_) hd
  rw [subscribers_update hs]
  split
  next hk => rw [hk, hm, subscribers_some hn]
  next => rfl

theorem triggerSingle_subscribers (n : SharedNotice) (data : DataId) :
    (n.triggerSingle data).nVector.map (·.toSubscriber) = n.nVector.map (·.toSubscriber) := by
  rw [SharedNotice.triggerSingle, List.map_map]
  apply List.map_congr_left
  intro v _
  dsimp only [Function.comp_apply]
  split <;> rfl

theorem setParse_nVector (n : SharedNotice) (p : Option Words) : (n.setParse p).nVector = n.nVector := by
  cases p <;> rfl

theorem count_dispatchCompact (links : List NoticeId) (id k : NoticeId) :
    (dispatchCompact links id).count k = if k = id then 0 else links.count k := by
  have hperm := @compact_perm _ _ (fun _ y => y) (fun link => decide (link = id)) (fun link => link)
    (fun link => decide (link = id)) (fun _ _ => rfl) (fun _ => rfl) links
  simp only [List.map_id_fun', id_def] at hperm
  rw [dispatchCompact, hperm.count_eq]
  split
  next hk => simp [hk, List.count_eq_zero]
  next hk => exact List.count_filter (by simpa using hk)

theorem noticeCompact_subscribers (n : SharedNotice) (d : ClientId) :
    ((n.noticeCompact d).nVector.map (·.toSubscriber)).Perm
      ((n.nVector.map (·.toSubscriber)).filter fun v => !(v.vClient = d)) :=
  @compact_perm _ _ (fun x y => { y with vTrigger := x.vTrigger }) (fun v => decide (v.vClient = d))
    (·.toSubscriber) (fun v => decide (v.vClient = d)) (fun _ _ => rfl) (fun _ => rfl) n.nVector

theorem LinksMatch.drop {i : Nat} {v : Invoke} (h : LinksMatch s) (hn : s.store id = some n)
    (hv : n.nVector[i]? = some v) (hlone : s.subscriptions id v.vClient = 1) :
    LinksMatch (s.dropEntry id n i v) := by
  have hsub : ∀ k, (s.dropEntry id n i v).subscribers k =
      if k = id then removeAt (s.subscribers id) i else s.subscribers k := by
    intro k
    rw [subscribers_update rfl, removeAt_map, subscribers_some hn]
  have hx : (s.subscribers id)[i]? = some v.toSubscriber := by
    rw [subscribers_some hn, List.getElem?_map, hv, Option.map_some]
  have hperm := removeAt_perm hx
  intro k d
  rw [Notices.subscriptions, hsub]
  show _ = ((Function.update s.dNotices v.vClient (dispatchCompact (s.dNotices v.vClient) id)) d).count k
  rw [Function.update_apply]
  have hcount := hperm.countP_eq fun w => decide (w.vClient = d)
  rw [List.countP_cons] at hcount
  have hd := h k d
  unfold Notices.subscriptions at hlone hd
  split
  next hk =>
    subst hk
    split
    next hv =>
      subst hv
      rw [count_dispatchCompact, if_pos rfl]
      simp only [decide_true, if_true] at hcount
      omega
    next hv => simpa [Ne.symm hv, hd] using hcount
  next hk =>
    split
    next hv => rw [count_dispatchCompact, if_neg hk, ← hv, hd, hv]
    next => exact hd

/-- One client is taken out of the vectors of some notices. -/
theorem compactAll_subscriptions {ids : List NoticeId} (hlive : ∀ k ∈ ids, ∃ n, s.store k = some n) :
    ∃ t, ids.foldlM (fun (t : Notices) id => t.onNotice id (·.noticeCompact d)) s = some t ∧
      t.dNotices = s.dNotices ∧ (∀ k c, c ≠ d → t.subscriptions k c = s.subscriptions k c) ∧
      ∀ k, k ∈ ids ∨ s.subscriptions k d = 0 → t.subscriptions k d = 0 := by
  induction ids generalizing s with
  | nil => exact ⟨s, rfl, rfl, fun _ _ _ => rfl, fun k hk => hk.resolve_left (by simp)⟩
  | cons id rest ih =>
    obtain ⟨n, hn⟩ := hlive id (by simp)
    let s1 := s.putNotice id (n.noticeCompact d)
    have hone : s.onNotice id (·.noticeCompact d) = some s1 := by simp [Notices.onNotice, hn, s1]
    have hperm := noticeCompact_subscribers n d
    have hsub : ∀ k, s1.subscribers k = if k = id then (n.noticeCompact d).nVector.map (·.toSubscriber)
        else s.subscribers k := subscribers_update rfl
    have hother : ∀ k c, c ≠ d → s1.subscriptions k c = s.subscriptions k c := by
      intro k c hc
      unfold Notices.subscriptions
      rw [hsub]
      split
      next hk =>
        rw [hk, hperm.countP_eq, subscribers_some hn, List.countP_filter]
        apply List.countP_congr
        intro v _
        by_cases hv : v.vClient = c
        · simp [hv, hc]
        · simp [hv]
      next => rfl
    have hgone : ∀ k, k = id ∨ s.subscriptions k d = 0 → s1.subscriptions k d = 0 := by
      intro k hk
      unfold Notices.subscriptions at hk ⊢
      rw [hsub]
      split
      next =>
        rw [hperm.countP_eq, List.countP_filter, List.countP_eq_zero]
        simp
      next hne => exact hk.resolve_left hne
    have hlive1 : ∀ k ∈ rest, ∃ n, s1.store k = some n := by
      intro k hk
      simp only [s1, Notices.putNotice, Function.update_apply]
      split
      · exact ⟨_, rfl⟩
      · exact hlive k (by simp [hk])
    obtain ⟨t, ht, hd, hc, hz⟩ := ih hlive1
    refine ⟨t, by rw [List.foldlM_cons, hone]; exact ht, hd, ?_, ?_⟩
    · intro k c hcd
      rw [hc k c hcd, hother k c hcd]
    · intro k hk
      apply hz
      rw [List.mem_cons, or_assoc] at hk
      rcases hk with hk | hk | hk
      · exact Or.inr (hgone k (Or.inl hk))
      · exact Or.inl hk
      · exact Or.inr (hgone k (Or.inr hk))

theorem LinksMatch.live (h : LinksMatch s) (hk : k ∈ s.dNotices d) : ∃ n, s.store k = some n := by
  have hpos := List.count_pos_iff.mpr hk
  rw [← h k d, Notices.subscriptions, Notices.subscribers] at hpos
  cases hn : s.store k with
  | none => simp [hn] at hpos
  | some n => exact ⟨n, rfl⟩

theorem LinksMatch.disown (h : LinksMatch s) (d : ClientId) :
    ∃ t, disownNotices s d = some t ∧ LinksMatch t ∧ ∀ k, t.subscriptions k d = 0 := by
  obtain ⟨t, ht, hd, hc, hz⟩ := @compactAll_subscriptions s d (s.dNotices d).reverse
    (fun k hk => h.live (List.mem_reverse.mp hk))
  have hzero : ∀ k, t.subscriptions k d = 0 := by
    intro k
    apply hz
    rw [List.mem_reverse, h k d, List.count_eq_zero]
    exact Classical.em _
  refine ⟨{ t with dNotices := Function.update t.dNotices d [] }, by rw [disownNotices, ht]; rfl, ?_, hzero⟩
  intro k c
  show t.subscriptions k c = (Function.update t.dNotices d [] c).count k
  rw [Function.update_apply]
  split
  next hcd => rw [hcd, hzero k, List.count_nil]
  next hcd => rw [hc k c hcd, hd, h k c]

end

section

open SwapVector

/-- What `add_notice_katcp` compares. -/
def Subscriber.key (v : Subscriber) : CallId × DataId := (v.vCall, v.vData)

structure NoticesInv (s : Notices) : Prop where
  listed : ∀ id, id ∈ s.sNotices ↔ ∃ n, s.store id = some n
  nodup : s.sNotices.Nodup
  below : ∀ id n, s.store id = some n → id < s.fresh
  here : ∀ i r, s.run = some ⟨i, some r⟩ → s.sNotices[i]? = some r.id
  keyed : ∀ id, ((s.subscribers id).map Subscriber.key).Nodup

variable {s s' : Notices} {id k : NoticeId} {n m : SharedNotice} {d : ClientId}

theorem noNotices_inv : NoticesInv noNotices where
  listed := by simp [noNotices]
  nodup := List.nodup_nil
  below := by simp [noNotices]
  here := by simp [noNotices]
  keyed := by simp [Notices.subscribers, noNotices]

theorem NoticesInv.put (h : NoticesInv s) (hn : s.store id = some n)
    (hs : s'.store = Function.update s.store id (some m)) (hl : s'.sNotices = s.sNotices)
    (hf : s'.fresh = s.fresh) (hr : ∀ i r, s'.run = some ⟨i, some r⟩ → s.sNotices[i]? = some r.id)
    (hm : ((m.nVector.map (·.toSubscriber)).map Subscriber.key).Nodup) : NoticesInv s' where
  listed k := by
    rw [hl, hs, h.listed, Function.update_apply]
    split
    next hk => simp [hk, hn]
    next => rfl
  nodup := hl ▸ h.nodup
  below k x hx := by
    rw [hs, Function.update_apply] at hx
    rw [hf]
    split at hx
    next hk => exact hk ▸ h.below id n hn
    next => exact h.below k x hx
  here i r hrun := hl ▸ hr i r hrun
  keyed k := by
    rw [subscribers_update hs]
    split
    · exact hm
    · exact h.keyed k

/-- Only where the run is has changed. -/
theorem NoticesInv.moveRun (h : NoticesInv s) {r : Option NoticeRun}
    (hr : ∀ i x, r = some ⟨i, some x⟩ → s.sNotices[i]? = some x.id) :
    NoticesInv { s with run := r } where
  listed := h.listed
  nodup := h.nodup
  below := h.below
  here := hr
  keyed := h.keyed

theorem NoticesInv.keyed_of (h : NoticesInv s) (hn : s.store id = some n) :
    ((n.nVector.map (·.toSubscriber)).map Subscriber.key).Nodup := by
  rw [← subscribers_some hn]
  exact h.keyed id

theorem NoticesInv.onNotice {f : SharedNotice → SharedNotice} (h : NoticesInv s)
    (hs : s.onNotice id f = some s')
    (hf : ∀ n, (f n).nVector.map (·.toSubscriber) = n.nVector.map (·.toSubscriber)) :
    NoticesInv s' := by
  obtain ⟨n, hn, rfl⟩ := onNotice_some hs
  exact h.put hn rfl rfl rfl h.here (hf n ▸ h.keyed_of hn)

theorem NoticesInv.drop {i : Nat} {v : Invoke} (h : NoticesInv s) (hn : s.store id = some n)
    (hv : n.nVector[i]? = some v) : NoticesInv (s.dropEntry id n i v) := by
  refine h.put hn rfl rfl rfl h.here ?_
  have hperm := ((removeAt_perm hv).map fun v => v.toSubscriber).map Subscriber.key
  have hnodup := hperm.nodup_iff.mpr (h.keyed_of hn)
  exact hnodup.of_cons

theorem NoticesInv.compactAll {ids : List NoticeId} (h : NoticesInv s)
    (hs : ids.foldlM (fun (t : Notices) id => t.onNotice id (·.noticeCompact d)) s = some s') :
    NoticesInv s' := by
  induction ids generalizing s with
  | nil =>
    cases hs
    exact h
  | cons id rest ih =>
    rw [List.foldlM_cons] at hs
    obtain ⟨s1, hone, hs⟩ := Option.bind_eq_some_iff.mp hs
    obtain ⟨n, hn, rfl⟩ := onNotice_some hone
    have hperm := (noticeCompact_subscribers n d).map Subscriber.key
    have hkeyed := hperm.nodup_iff.mpr ((h.keyed_of hn).sublist (List.filter_sublist.map _))
    have h1 : NoticesInv (s.putNotice id (n.noticeCompact d)) := h.put hn rfl rfl rfl h.here hkeyed
    exact ih h1 hs

theorem NoticesInv.leave {i : Nat} (h : NoticesInv s) (hn : s.store id = some n)
    (hi : s.sNotices[i]? = some id)
    (hm : m.nVector.map (·.toSubscriber) = n.nVector.map (·.toSubscriber)) :
    NoticesInv (s.leaveNotice i id m) := by
  unfold Notices.leaveNotice
  split
  · have hmem : ∀ k, k ∈ s.sNotices.eraseIdx i ↔ k ≠ id ∧ k ∈ s.sNotices := by
      obtain ⟨hlt, rfl⟩ := List.getElem?_eq_some_iff.mp hi
      intro k
      rw [← h.nodup.erase_getElem i hlt, h.nodup.mem_erase_iff]
    constructor
    · intro k
      dsimp only
      rw [hmem, h.listed, Function.update_apply]
      split
      next hk => simp [hk]
      next hk => simp [hk]
    · exact h.nodup.eraseIdx i
    · intro k x hx
      dsimp only at hx
      rw [Function.update_apply] at hx
      split at hx
      · cases hx
      · exact h.below k x hx
    · intro j r hr
      cases hr
    · intro k
      unfold Notices.subscribers
      dsimp only
      rw [Function.update_apply]
      split
      · exact List.nodup_nil
      · exact h.keyed k
  · exact h.put hn rfl rfl rfl (by simp) (hm ▸ h.keyed_of hn)

theorem NoticesInv.disown (h : NoticesInv s) (hs : disownNotices s d = some s') : NoticesInv s' := by
  obtain ⟨t, ht, rfl⟩ := Option.map_eq_some_iff.mp hs
  have hi := h.compactAll ht
  exact ⟨hi.listed, hi.nodup, hi.below, hi.here, hi.keyed⟩

theorem NoticesInv.made (h : NoticesInv s) (hm : m.nVector = []) :
    NoticesInv { s with
      sNotices := s.sNotices ++ [s.fresh]
      store := Function.update s.store s.fresh (some m)
      fresh := s.fresh + 1 } := by
  have hnew : s.fresh ∉ s.sNotices := by
    intro hmem
    obtain ⟨n, hn⟩ := (h.listed _).mp hmem
    exact Nat.lt_irrefl _ (h.below _ n hn)
  constructor
  · intro k
    dsimp only
    rw [List.mem_append, List.mem_singleton, h.listed, Function.update_apply]
    split
    next hk => simp [hk]
    next hk => simp [hk]
  · exact List.nodup_append.mpr ⟨h.nodup, List.nodup_singleton _, by
      intro a ha b hb
      rw [List.mem_singleton.mp hb]
      rintro rfl
      exact hnew ha⟩
  · intro k x hx
    dsimp only at hx ⊢
    rw [Function.update_apply] at hx
    split at hx
    next hk => exact hk ▸ Nat.lt_succ_self _
    next => exact Nat.lt_succ_of_lt (h.below k x hx)
  · intro i r hr
    obtain ⟨hlt, hi⟩ := List.getElem?_eq_some_iff.mp (h.here i r hr)
    rw [List.getElem?_append_left hlt, List.getElem?_eq_getElem hlt, hi]
  · intro k
    rw [subscribers_update rfl]
    split
    · simp [hm]
    · exact h.keyed k

theorem NoticesInv.added {v : Subscriber} {r : Option NoticeRun} (h : NoticesInv s)
    (hn : s.store id = some n) (hnew : ∀ w ∈ n.nVector, w.key ≠ v.key)
    (hr : ∀ i x, r = some ⟨i, some x⟩ → s.sNotices[i]? = some x.id) {links : ClientId → List NoticeId} :
    NoticesInv { s.putNotice id { n with nVector := n.nVector ++ [⟨v, false⟩] } with
      dNotices := links
      run := r } := by
  refine h.put hn rfl rfl rfl hr ?_
  simp only [List.map_append, List.map_cons, List.map_nil]
  refine List.nodup_append.mpr ⟨h.keyed_of hn, List.nodup_singleton _, ?_⟩
  intro a ha b hb
  obtain ⟨w, hw, rfl⟩ := List.mem_map.mp ha
  obtain ⟨x, hx, rfl⟩ := List.mem_map.mp hw
  rw [List.mem_singleton.mp hb]
  exact hnew x hx

end

end Katcp
