import Katcp.SharedWriters
import Katcp.LineRoundTrip
import Mathlib.Algebra.BigOperators.Group.List.Basic

namespace Katcp

section

/-- The references to a message from the queues of lines. -/
def queuedRefs (lines : List HeldLine) (id : Nat) : Nat := (lines.map fun h => h.ids.count id).sum

/-- Those from the queues of the lines other than the `k`th. -/
def elsewhere (lines : List HeldLine) (k id : Nat) : Nat :=
  queuedRefs (lines.take k) id + queuedRefs (lines.drop (k + 1)) id

variable {lines : List HeldLine} {k j id : Nat} {h h' : HeldLine}

theorem queuedRefs_append (front back : List HeldLine) (id : Nat) :
    queuedRefs (front ++ back) id = queuedRefs front id + queuedRefs back id := by
  rw [queuedRefs, List.map_append, List.sum_append]
  rfl

theorem queuedRefs_set (hk : lines[k]? = some h) (h' : HeldLine) (id : Nat) :
    queuedRefs (lines.set k h') id = elsewhere lines k id + h'.ids.count id := by
  obtain ⟨hlt, _⟩ := List.getElem?_eq_some_iff.mp hk
  rw [List.set_eq_take_append_cons_drop, if_pos hlt, queuedRefs_append, elsewhere]
  simp only [queuedRefs, List.map_cons, List.sum_cons]
  omega

theorem queuedRefs_at (hk : lines[k]? = some h) (id : Nat) :
    queuedRefs lines id = elsewhere lines k id + h.ids.count id := by
  obtain ⟨hlt, he⟩ := List.getElem?_eq_some_iff.mp hk
  subst he
  have hset := queuedRefs_set hk lines[k] id
  rwa [List.set_getElem_self] at hset

theorem queuedRefs_pos (hk : lines[k]? = some h) (hid : id ∈ h.ids) : 0 < queuedRefs lines id := by
  rw [queuedRefs_at hk]
  have := List.count_pos_iff.mpr hid
  omega

theorem elsewhere_pos (hj : lines[j]? = some h') (hne : j ≠ k) (hid : id ∈ h'.ids) : 0 < elsewhere lines k id := by
  rw [elsewhere]
  rcases Nat.lt_or_gt_of_ne hne with hlt | hgt
  · have htake : (lines.take k)[j]? = some h' := by rw [List.getElem?_take, if_pos hlt]; exact hj
    have := queuedRefs_pos htake hid
    omega
  · have hdrop : (lines.drop (k + 1))[j - (k + 1)]? = some h' := by
      rw [List.getElem?_drop, show k + 1 + (j - (k + 1)) = j by omega]
      exact hj
    have := queuedRefs_pos hdrop hid
    omega

/-- A line between two calls, with what it was given and has sent. -/
structure LineShared (st : ParseStore) (h : HeldLine) (k : Nat) (log : List SharingEvent) : Prop where
  ready : AllReady st h.ids
  sound : LineSound (viewLine st h)
  bare : HeadBare st h
  stream : sentBy k log ++ madeStream st h .fill = (addedTo k log).flatMap encodeArgs

structure SharingInv (s : Sharing) (log : List SharingEvent) : Prop where
  refs : ∀ id sp, s.store id = some sp → sp.refs = s.owned id + queuedRefs s.lines id
  lines : ∀ k h, s.lines[k]? = some h → LineShared s.store h k log
  honest : Honest s.store

variable {st st' : ParseStore} {log out : List SharingEvent} {live : Nat → Prop}

theorem sentBy_append (k : Nat) (log out : List SharingEvent) : sentBy k (log ++ out) = sentBy k log ++ sentBy k out :=
  List.flatMap_append

theorem addedTo_append (k : Nat) (log out : List SharingEvent) :
    addedTo k (log ++ out) = addedTo k log ++ addedTo k out :=
  List.filterMap_append

/-- What happens to other messages, and says nothing of this line, leaves it as it is. -/
theorem LineShared.carried (hl : LineShared st h k log) (hc : CarriesOver live st st')
    (hlive : ∀ id ∈ h.ids, live id) (hsent : sentBy k out = []) (hadded : addedTo k out = []) :
    LineShared st' h k (log ++ out) := by
  refine ⟨hl.ready.carried hc hlive, ?_, hl.bare.carried hl.ready hc hlive, ?_⟩
  · exact (viewLine_carried hl.ready hc hlive).writing hl.sound
  · have hstream := hl.stream
    rw [madeStream] at hstream
    rw [madeStream, made_carried hl.ready hc hlive, sentBy_append, addedTo_append, hsent, hadded, List.append_nil,
      List.append_nil]
    exact hstream

theorem SharingInv.ready {s : Sharing} (hs : SharingInv s log) (hk : s.lines[k]? = some h) : AllReady s.store h.ids :=
  (hs.lines k h hk).ready

/-- A message that is not there is in no queue. -/
theorem SharingInv.unqueued {s : Sharing} (hs : SharingInv s log) (hnot : ∀ sp, s.store id = some sp → ¬ Ready sp) :
    queuedRefs s.lines id = 0 := by
  by_contra hne
  obtain ⟨h, hmem, hid⟩ : ∃ h ∈ s.lines, id ∈ h.ids := by
    by_contra hno
    simp only [not_exists, not_and] at hno
    apply hne
    rw [queuedRefs, List.sum_eq_zero]
    intro n hn
    obtain ⟨h, hh, rfl⟩ := List.mem_map.mp hn
    exact List.count_eq_zero.mpr (hno h hh)
  obtain ⟨k, hk⟩ := List.mem_iff_getElem?.mp hmem
  obtain ⟨sp, hsp, hready⟩ := hs.ready hk id hid
  exact hnot sp hsp hready

/-- What touches the store alone, and says nothing. -/
theorem SharingInv.stored {s : Sharing} (hs : SharingInv s log) {owned : Nat → Nat}
    (hc : CarriesOver (fun id => 0 < queuedRefs s.lines id) s.store st)
    (hrefs : ∀ id sp, st id = some sp → sp.refs = owned id + queuedRefs s.lines id) (hhonest : Honest st) :
    SharingInv { s with store := st, owned := owned } (log ++ []) := by
  refine ⟨hrefs, fun k h hk => ?_, hhonest⟩
  exact (hs.lines k h hk).carried hc (fun id hid => queuedRefs_pos hk hid) rfl rfl

theorem carries_update {sp' : SharedParse} (hid : ∀ sp, st id = some sp → live id → Carried sp sp') :
    CarriesOver live st (Function.update st id (some sp')) := by
  intro x sx hlive hsx
  by_cases hx : x = id
  · subst hx
    exact ⟨sp', Function.update_self .., hid sx hsx hlive⟩
  · exact ⟨sx, (Function.update_of_ne hx ..).trans hsx, .refl sx⟩

variable {s : Sharing}

/-- A message that is not there yet is created. -/
theorem SharingInv.create (hs : SharingInv s log) (hnone : s.store id = none) (p : Parse) :
    SharingInv { s with store := s.store.createReferenced id p, owned := Function.update s.owned id 1 }
      (log ++ []) := by
  have hzero : queuedRefs s.lines id = 0 :=
    hs.unqueued fun sp hsp => by rw [hnone] at hsp; cases hsp
  refine hs.stored (carries_update fun sp hsp => by rw [hnone] at hsp; cases hsp) (fun x sx hsx => ?_)
    (hs.honest.update id fun sx hsx => ?_)
  · rw [ParseStore.createReferenced] at hsx
    by_cases hx : x = id
    · subst hx
      rw [Function.update_self] at hsx ⊢
      cases Option.some.inj hsx
      rw [hzero]
    · rw [Function.update_of_ne hx] at hsx ⊢
      exact hs.refs x sx hsx
  · cases Option.some.inj hsx
    exact List.forall₂_same.mpr fun a _ => .refl a

/-- A message to which no queue refers can be changed at will. -/
theorem SharingInv.changed (hs : SharingInv s log) {sp sp' : SharedParse} (hsp : s.store id = some sp)
    (hzero : queuedRefs s.lines id = 0) (hrefs : sp'.refs = sp.refs) (hmade : sp'.made = sp'.parse.args) :
    SharingInv { s with store := Function.update s.store id (some sp') } (log ++ []) := by
  refine hs.stored (carries_update fun x _ hpos => ?_) (fun x sx hsx => ?_) (hs.honest.update id fun sx hsx => ?_)
  · rw [hzero] at hpos
    exact absurd hpos (Nat.lt_irrefl 0)
  · by_cases hx : x = id
    · subst hx
      rw [Function.update_self] at hsx
      cases Option.some.inj hsx
      rw [hrefs]
      exact hs.refs x sp hsp
    · rw [Function.update_of_ne hx] at hsx
      exact hs.refs x sx hsx
  · cases Option.some.inj hsx
    rw [hmade]
    exact List.forall₂_same.mpr fun a _ => .refl a

/-- One who holds a reference takes another. -/
theorem SharingInv.copied (hs : SharingInv s log) {sp : SharedParse} (hsp : s.store id = some sp) :
    SharingInv { s with
      store := Function.update s.store id (some { sp with refs := sp.refs + 1 })
      owned := Function.update s.owned id (s.owned id + 1) } (log ++ []) := by
  refine hs.stored (carries_update fun x hx _ => ?_) (fun x sx hsx => ?_) (hs.honest.update id fun sx hsx => ?_)
  · cases Option.some.inj (hsp.symm.trans hx)
    exact .of_refs sp _
  · by_cases hx : x = id
    · subst hx
      have hold := hs.refs x sp hsp
      rw [Function.update_self] at hsx ⊢
      cases Option.some.inj hsx
      dsimp only
      omega
    · rw [Function.update_of_ne hx] at hsx ⊢
      exact hs.refs x sx hsx
  · cases Option.some.inj hsx
    exact hs.honest id sp hsp

/-- One who holds a reference gives it up. -/
theorem SharingInv.destroyed (hs : SharingInv s log) (howned : s.owned id ≠ 0) :
    SharingInv { s with
      store := s.store.destroyParse id
      owned := Function.update s.owned id (s.owned id - 1) } (log ++ []) := by
  cases hsp : s.store id with
  | none =>
    have hst : s.store.destroyParse id = s.store := by rw [ParseStore.destroyParse, hsp]
    rw [hst]
    refine hs.stored (.refl _ _) (fun x sx hsx => ?_) hs.honest
    have hx : x ≠ id := by
      rintro rfl
      rw [hsp] at hsx
      cases hsx
    rw [Function.update_of_ne hx]
    exact hs.refs x sx hsx
  | some sp =>
    have hst : s.store.destroyParse id = Function.update s.store id
        (if sp.refs ≤ 1 then none else some { sp with refs := sp.refs - 1 }) := by
      rw [ParseStore.destroyParse, hsp]
    have hold := hs.refs id sp hsp
    rw [hst]
    refine hs.stored (fun x sx hpos hsx => ?_) (fun x sx hsx => ?_) (hs.honest.update id fun sx hsx => ?_)
    · by_cases hx : x = id
      · subst hx
        cases Option.some.inj (hsp.symm.trans hsx)
        refine ⟨{ sp with refs := sp.refs - 1 }, ?_, .of_refs sp _⟩
        rw [Function.update_self, if_neg (by omega)]
      · exact ⟨sx, (Function.update_of_ne hx ..).trans hsx, .refl sx⟩
    · by_cases hx : x = id
      · subst hx
        rw [Function.update_self] at hsx ⊢
        obtain ⟨_, hsx⟩ := Option.ite_none_left_eq_some.mp hsx
        cases Option.some.inj hsx
        dsimp only
        omega
      · rw [Function.update_of_ne hx] at hsx ⊢
        exact hs.refs x sx hsx
    · obtain ⟨_, hsx⟩ := Option.ite_none_left_eq_some.mp hsx
      cases Option.some.inj hsx
      exact hs.honest id sp hsp

theorem SharingInv.reused (hs : SharingInv s log) (howned : s.owned id ≠ 0) {fresh next : Nat}
    (hr : s.store.reuseParse id fresh = some (st, next)) :
    (next = id → SharingInv { s with store := st } (log ++ [])) ∧ (next ≠ id → SharingInv { s with
      store := st
      owned := Function.update (Function.update s.owned id (s.owned id - 1)) next 1 } (log ++ [])) := by
  unfold ParseStore.reuseParse at hr
  split at hr
  next => cases hr
  next sp hsp =>
    have hold := hs.refs id sp hsp
    split at hr
    next hle =>
      cases Option.some.inj hr
      exact ⟨fun _ => hs.changed hsp (by omega) rfl rfl, fun hne => absurd rfl hne⟩
    next hmore =>
      split at hr
      next => cases hr
      next hfresh =>
        cases Option.some.inj hr
        have hnone := Option.not_isSome_iff_eq_none.mp hfresh
        have hne : fresh ≠ id := by
          rintro rfl
          rw [hnone] at hsp
          cases hsp
        refine ⟨fun he => absurd he hne, fun _ => ?_⟩
        have hcreated := hs.create hnone createParse
        have hstill : Function.update s.owned fresh 1 id ≠ 0 := by
          rw [Function.update_of_ne (Ne.symm hne)]
          exact howned
        have hdestroyed := hcreated.destroyed hstill
        rw [List.append_nil, List.append_nil] at hdestroyed
        rw [List.append_nil]
        dsimp only at hdestroyed
        rwa [Function.update_of_ne (Ne.symm hne), Function.update_comm hne] at hdestroyed

theorem copyParse_some (hcopy : st.copyParse id = some st') : ∃ sp, st id = some sp ∧ sp.parse.pState = .done ∧
    st' = Function.update st id (some { sp with refs := sp.refs + 1 }) := by
  unfold ParseStore.copyParse at hcopy
  split at hcopy
  next => cases hcopy
  next sp hsp =>
    obtain ⟨hdone, hcopy⟩ := Option.ite_none_left_eq_some.mp hcopy
    exact ⟨sp, hsp, not_not.mp hdone, (Option.some.inj hcopy).symm⟩

/-- The head of a queue stays the head when a message is put behind it. -/
theorem HeadBare.snoc (hb : HeadBare st h) (hs : LineSound (viewLine st h)) (id : Nat) :
    HeadBare st { h with ids := h.ids ++ [id] } := by
  intro x rest hids
  cases hold : h.ids with
  | nil =>
    have hplaced := hs.placed
    simp only [Placed, viewLine, contents_queueOf, hold, List.map_nil] at hplaced
    dsimp only
    rw [hplaced.2.1]
    exact .zero _ _ _
  | cons y ys =>
    simp only [hold, List.cons_append, List.cons.injEq] at hids
    rw [← hids.1]
    exact hb y ys hold

/-- A message put on a line: what is to come is its line as it was made. -/
theorem LineShared.queued (hl : LineShared st h k log) {sp : SharedParse} (hsp : st id = some sp) (hready : Ready sp) :
    LineShared st { h with ids := h.ids ++ [id] } k (log ++ [.added k sp.made]) := by
  have hall : AllReady st (h.ids ++ [id]) := by
    intro x hx
    rcases List.mem_append.mp hx with hx | hx
    · exact hl.ready x hx
    · rw [List.mem_singleton.mp hx]
      exact ⟨sp, hsp, hready⟩
  have hview : (viewLine st { h with ids := h.ids ++ [id] }).lQueue.contents =
      (viewLine st h).lQueue.contents ++ [sp.parse] := by
    simp only [viewLine, contents_queueOf, List.map_append, List.map_cons, List.map_nil, parse_of_some hsp]
  obtain ⟨hsound, hbacklog⟩ := hl.sound.add hready.sound hview rfl rfl rfl
  refine ⟨hall, hsound, hl.bare.snoc hl.sound id, ?_⟩
  have hstream := hl.stream
  have hold : madeStream st h .fill = backlog (viewLine st h) := by
    rw [madeStream, backlog, ahead_view hl.ready]
    rfl
  have hnew : madeStream st { h with ids := h.ids ++ [id] } .fill =
      backlog (viewLine st { h with ids := h.ids ++ [id] }) := by
    rw [madeStream, backlog, ahead_view hall]
    rfl
  have hadded : addedTo k [SharingEvent.added k sp.made] = [sp.made] := by simp [addedTo]
  rw [hnew, hbacklog, ← hold, hready.hints.encodeArgs, sentBy_append, addedTo_append, hadded, List.flatMap_append,
    ← hstream]
  simp [sentBy]

theorem other_added {k j : Nat} (hne : j ≠ k) (args : List Arg) :
    sentBy j [.added k args] = [] ∧ addedTo j [.added k args] = [] := by
  simp [sentBy, addedTo, Ne.symm hne]

theorem other_sent {k j : Nat} (hne : j ≠ k) (bytes : List Byte) :
    sentBy j [.sent k bytes] = [] ∧ addedTo j [.sent k bytes] = [] := by
  simp [sentBy, addedTo, Ne.symm hne]

theorem SharingInv.queued (hs : SharingInv s log) (hk : s.lines[k]? = some h) (hcopy : s.store.copyParse id = some st)
    (hsound : Sound (s.store.parse id)) : SharingInv { s with store := st, lines := s.lines.set k { h with ids := h.ids ++ [id] } }
      (log ++ [.added k (s.store.made id)]) := by
  obtain ⟨sp, hsp, hdone, rfl⟩ := copyParse_some hcopy
  rw [parse_of_some hsp] at hsound
  have hready : Ready sp := ⟨hdone, hsound, hs.honest id sp hsp⟩
  have hover : ∀ live, CarriesOver live s.store (Function.update s.store id (some { sp with refs := sp.refs + 1 })) := by
    intro live
    refine carries_update fun x hx _ => ?_
    cases Option.some.inj (hsp.symm.trans hx)
    exact .of_refs sp _
  have hlt := (List.getElem?_eq_some_iff.mp hk).1
  refine ⟨fun x sx hsx => ?_, fun j hj hget => ?_, hs.honest.update id fun sx hsx => ?_⟩
  · dsimp only at hsx ⊢
    have hat := queuedRefs_at hk x
    rw [queuedRefs_set hk, List.count_append]
    by_cases hx : x = id
    · subst hx
      have hold := hs.refs x sp hsp
      rw [Function.update_self] at hsx
      cases Option.some.inj hsx
      rw [List.count_singleton_self]
      dsimp only
      omega
    · have hone : [id].count x = 0 := List.count_eq_zero.mpr (by simpa using hx)
      rw [Function.update_of_ne hx] at hsx
      rw [hs.refs x sx hsx, hat, hone]
      omega
  · rw [made_of_some hsp]
    dsimp only at hget ⊢
    by_cases hjk : j = k
    · subst hjk
      rw [List.getElem?_set_self hlt] at hget
      cases Option.some.inj hget
      have hline : LineShared (Function.update s.store id (some { sp with refs := sp.refs + 1 })) h j (log ++ []) :=
        (hs.lines j h hk).carried (hover fun _ => True) (by simp) rfl rfl
      have hnew := LineShared.queued hline (Function.update_self ..) (hready.carried (.of_refs sp _))
      rwa [List.append_nil] at hnew
    · rw [List.getElem?_set_ne (Ne.symm hjk)] at hget
      exact (hs.lines j hj hget).carried (hover fun _ => True) (by simp) (other_added hjk _).1 (other_added hjk _).2
  · cases Option.some.inj hsx
    exact hready.hints

theorem madeStream_resting {state : WriteState} (hn : state ≠ .next) :
    madeStream st h state = madeStream st h .fill := by
  have hahead : aheadArgs (h.ids.map st.made) h.line.lArg h.line.lOffset state =
      aheadArgs (h.ids.map st.made) h.line.lArg h.line.lOffset .fill := by
    unfold aheadArgs
    split
    next => rfl
    next => rw [if_neg hn, if_neg (by decide)]
  rw [madeStream, madeStream, hahead]

/-- A line of which a call of `write_katcl` came back. -/
theorem ReturnsShared.line {w w' : SharedWriter} {others : Nat → Nat} {result : WriteResult} {more : List Byte}
    (hret : ReturnsShared w others result w') (hl : LineShared w.store w.held k log) (hw : w.state = .fill)
    (hwire : w.wire = []) (hmore : w'.wire = more) :
    LineShared w'.store w'.held k (log ++ [.sent k more]) := by
  have hn : w'.state ≠ .next := by
    rcases hret.result with ⟨_, hs⟩ | ⟨hs, _⟩ <;> simp [hs]
  have hwriting := hret.writes.writing
  have hroom : w'.view.line.lPending + (if w'.state = .next then tmpMargin - 2 else 1) ≤ ioSize := hwriting.room
  refine ⟨hret.writes.ready, ⟨hwriting.sound, ?_, hwriting.placed.enter hn (by simp), fun hd => by cases hd⟩,
    hret.writes.bare, ?_⟩
  · rw [if_neg hn] at hroom
    exact hroom
  · have hstream := hret.stream
    rw [SharedWriter.stream, SharedWriter.stream, hw, hwire, madeStream_resting hn, hmore, List.nil_append] at hstream
    have hsent : sentBy k [SharingEvent.sent k more] = more := by simp [sentBy]
    have hadded : addedTo k [SharingEvent.sent k more] = [] := by simp [addedTo]
    rw [sentBy_append, addedTo_append, hsent, hadded, List.append_nil, List.append_assoc, hstream]
    exact hl.stream

theorem SharingInv.written (hs : SharingInv s log) (hk : s.lines[k]? = some h) (answers : List SendAnswer) :
    ∃ result w, sharedWrite s.store h answers = (result, w) ∧
      (result = .done ∨ result = .more ∨ result = .failed) ∧
      SharingInv { s with store := w.store, lines := s.lines.set k w.held } (log ++ [.sent k w.wire]) := by
  have hline := hs.lines k h hk
  have hwrites : WritesShared ⟨s.store, h, .fill, [], answers⟩ fun id => s.owned id + elsewhere s.lines k id := by
    refine ⟨hline.ready, fun id sp hsp => ?_, ⟨hline.sound.sound, hline.sound.room, hline.sound.placed,
      fun hd => by cases hd⟩, hline.bare, hs.honest⟩
    rw [hs.refs id sp hsp, queuedRefs_at hk, Nat.add_assoc]
  obtain ⟨result, w, hloop, hret⟩ := sharedLoop_returns hwrites (measure_lt_writeFuel (viewLine s.store h) answers)
  have hlt := (List.getElem?_eq_some_iff.mp hk).1
  refine ⟨result, w, hloop, ?_, fun id sp hsp => ?_, fun j hj hget => ?_, hret.writes.honest⟩
  · rcases hret.result with ⟨hr, _⟩ | ⟨_, hr⟩
    · exact .inl hr
    · exact .inr hr
  · dsimp only at hsp ⊢
    rw [hret.writes.refs id sp hsp, queuedRefs_set hk, Nat.add_assoc]
  · dsimp only at hget ⊢
    by_cases hjk : j = k
    · subst hjk
      rw [List.getElem?_set_self hlt] at hget
      cases Option.some.inj hget
      exact hret.line hline rfl rfl rfl
    · rw [List.getElem?_set_ne (Ne.symm hjk)] at hget
      refine (hs.lines j hj hget).carried hret.carries (fun id hid => ?_) (other_sent hjk _).1 (other_sent hjk _).2
      have := elsewhere_pos hget hjk hid
      omega

theorem sharing_start (n : Nat) : SharingInv (sharingMachine n).start [] := by
  refine ⟨fun id sp hsp => (by cases hsp), fun k h hk => ?_, fun id sp hsp => (by cases hsp)⟩
  obtain rfl : (⟨createLine, []⟩ : HeldLine) = h := by
    have hmem := List.mem_of_getElem? hk
    exact (List.eq_of_mem_replicate hmem).symm
  exact ⟨fun id hid => (by cases hid), createLine_sound, fun id rest hids => (by cases hids), rfl⟩

theorem sharing_keeps (n : Nat) : (sharingMachine n).Keeps queuesSound SharingInv := by
  refine Machine.keeps_of_act (f := fun s c => s.act c) (fun _ _ => rfl) (fun _ _ => rfl)
    fun s log c s1 out hs hok hact => ?_
  cases c with
  | create id p =>
    obtain ⟨hnot, hact⟩ := Option.ite_none_left_eq_some.mp hact
    cases Option.some.inj hact
    exact hs.create (Option.not_isSome_iff_eq_none.mp hnot) p
  | change id p =>
    rw [Sharing.act] at hact
    split at hact
    next => cases hact
    next sp hsp =>
      obtain ⟨hnot, hact⟩ := Option.ite_none_left_eq_some.mp hact
      cases Option.some.inj hact
      refine hs.changed hsp (hs.unqueued fun sx hsx hready => hnot (.inr ?_)) rfl rfl
      cases Option.some.inj (hsp.symm.trans hsx)
      exact hready.done
  | queue k id =>
    rw [Sharing.act] at hact
    split at hact
    next h st hk hcopy =>
      obtain ⟨_, hact⟩ := Option.ite_none_left_eq_some.mp hact
      cases Option.some.inj hact
      exact hs.queued hk hcopy hok
    next => cases hact
  | copy id =>
    rw [Sharing.act] at hact
    split at hact
    next => cases hact
    next st hcopy =>
      obtain ⟨_, hact⟩ := Option.ite_none_left_eq_some.mp hact
      cases Option.some.inj hact
      obtain ⟨sp, hsp, _, rfl⟩ := copyParse_some hcopy
      exact hs.copied hsp
  | destroy id =>
    obtain ⟨howned, hact⟩ := Option.ite_none_left_eq_some.mp hact
    cases Option.some.inj hact
    exact hs.destroyed howned
  | reuse id fresh =>
    rw [Sharing.act] at hact
    obtain ⟨howned, hact⟩ := Option.ite_none_left_eq_some.mp hact
    split at hact
    next => cases hact
    next st next hreuse =>
      obtain ⟨hsame, hother⟩ := hs.reused howned hreuse
      split at hact
      next he =>
        cases Option.some.inj hact
        exact hsame he
      next hne =>
        cases Option.some.inj hact
        exact hother hne
  | write k answers =>
    rw [Sharing.act] at hact
    split at hact
    next => cases hact
    next h hk =>
      obtain ⟨result, w, hwrite, _, hinv⟩ := hs.written hk answers
      rw [hwrite] at hact
      split at hact
      next => cases hact
      next => cases hact
      next w' _ _ he =>
        cases he
        cases Option.some.inj hact
        exact hinv

end

def addedArgs (log : List OutputEvent) : List (List Arg) :=
  log.filterMap fun
    | .added args => some args
    | .sent _ => none

theorem linesOf_eq (log : List OutputEvent) : linesOf log = (addedArgs log).flatMap encodeArgs := by
  induction log with
  | nil => rfl
  | cons e log ih =>
    cases e with
    | added args =>
      have hadded : addedArgs (.added args :: log) = args :: addedArgs log := rfl
      rw [hadded, List.flatMap_cons, ← ih]
      rfl
    | sent bytes => exact ih

/-- Whatever shares its messages and whenever the others write, a line sends what it would send
alone: the lines of its messages as these were made, which a reader takes for them; and a call
always comes back. -/
theorem shared_emits_alone {n : Nat} {s : Sharing} {log : List SharingEvent}
    (h : (sharingMachine n).Runs queuesSound s log) {k : Nat} {held : HeldLine} (hk : s.lines[k]? = some held) :
    sentBy k log <+: (addedTo k log).flatMap encodeArgs ∧
    (held.line.lPending = 0 → held.ids = [] → sentBy k log = (addedTo k log).flatMap encodeArgs ∧
      ∀ l log', outputMachine.Runs addsSound l log' → flushing l = false → addedArgs log' = addedTo k log →
        sentBytes log' = sentBy k log) ∧
    ((∀ as ∈ addedTo k log, wellFormed (as.map Arg.text) = true ∧ ∀ a ∈ as.tail, a.Clean) →
      ∃ m events, scanner.run ⟨0, some .start⟩ ((addedTo k log).flatMap encodeArgs) = (⟨m, some .start⟩, events) ∧
        events.map LineEvent.contents = (addedTo k log).map fun as => some (as.map Arg.text)) ∧
    ∀ answers, (sharedWrite s.store held answers).1 = .done ∨ (sharedWrite s.store held answers).1 = .more ∨
      (sharedWrite s.store held answers).1 = .failed := by
  have hinv := h.invariant SharingInv (sharing_start n) (sharing_keeps n)
  have hstream := (hinv.lines k held hk).stream
  refine ⟨⟨_, hstream⟩, fun hp hids => ?_, fun hclean => ?_, fun answers => ?_⟩
  · have hdone : sentBy k log = (addedTo k log).flatMap encodeArgs := by
      have hb : held.line.lBuffer = [] := List.eq_nil_of_length_eq_zero hp
      rw [madeStream, hids, hb, List.map_nil, aheadArgs, List.append_nil, List.append_nil] at hstream
      exact hstream
    refine ⟨hdone, fun l log' hruns hflush hsame => ?_⟩
    have hlone := hruns.invariant OutputInv ⟨createLine_sound, rfl⟩ outputMachine_keeps
    have hsent := hlone.stream
    rw [backlog_of_not_flushing hflush, List.append_nil, linesOf_eq, hsame] at hsent
    rw [hsent, hdone]
  · exact scanner_encodeLines (fun as has => (hclean as has).1) (fun as has => (hclean as has).2) 0
  · obtain ⟨result, w, hwrite, hresult, _⟩ := hinv.written hk answers
    rw [hwrite]
    exact hresult

/-- One message on two lines, the first of which writes it before and after the other does. -/
def sharedCalls : List SharingCall :=
  [.create 0 blankParse, .queue 0 0, .queue 1 0, .destroy 0, .write 0 [.sent 4, .errno eagain], .write 1 [.sent 20],
    .write 0 [.sent 20]]

theorem sharedCalls_sound : (sharingMachine 2).Meets queuesSound (sharingMachine 2).start sharedCalls := by
  refine ⟨trivial, fun s1 h1 => ?_⟩
  cases h1
  refine ⟨blankParse_sound, fun s2 h2 => ?_⟩
  cases h2
  exact ⟨blankParse_sound, fun _ _ => ⟨trivial, fun _ _ => ⟨trivial, fun _ _ => ⟨trivial, fun _ _ =>
    ⟨trivial, fun _ _ => trivial⟩⟩⟩⟩⟩

theorem shared_emits_alone_twice : ∃ s log held, (sharingMachine 2).Runs queuesSound s log ∧
    s.lines[0]? = some held ∧ sentBy 0 log = (addedTo 0 log).flatMap encodeArgs ∧
      sentBy 0 log = "#a \\@ x\\_y\n".toList.map byte ∧ sentBy 1 log = sentBy 0 log := by
  obtain ⟨⟨s, log⟩, he⟩ := Option.isSome_iff_exists.mp
    (show ((sharingMachine 2).exec (sharingMachine 2).start sharedCalls).isSome = true by decide)
  have hends : ((sharingMachine 2).exec (sharingMachine 2).start sharedCalls).map (fun r =>
      (r.1.lines.map fun h => (h.line.lPending, h.ids), sentBy 0 r.2, sentBy 1 r.2)) =
      some ([(0, []), (0, [])], "#a \\@ x\\_y\n".toList.map byte, "#a \\@ x\\_y\n".toList.map byte) := by
    decide
  rw [he] at hends
  obtain ⟨hlines, hsent⟩ := Prod.mk.inj (Option.some.inj hends)
  obtain ⟨h0, h1⟩ := Prod.mk.inj hsent
  have hruns := Machine.Runs.exec .start sharedCalls he sharedCalls_sound
  obtain ⟨held, rest, hcons⟩ : ∃ held rest, s.lines = held :: rest := by
    cases hs : s.lines with
    | nil => rw [hs] at hlines; cases hlines
    | cons held rest => exact ⟨held, rest, rfl⟩
  rw [hcons] at hlines
  obtain ⟨hp, hids⟩ := Prod.mk.inj (List.cons.inj hlines).1
  have hk : s.lines[0]? = some held := by rw [hcons]; rfl
  exact ⟨s, _, held, hruns, hk, ((shared_emits_alone hruns hk).2.1 hp hids).1, h0, h1.trans h0.symm⟩

end Katcp
