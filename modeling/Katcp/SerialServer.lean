import Mathlib.Data.List.Basic

/-- A server that works on one request at a time, as far as it can be seen: requests of type
`α`, replies of type `β`. -/
structure SerialServer (α β : Type*) where
  waiting : List α
  held : List α
  deferred : List α
  ready : List β
  sent : List β
  busy : Bool

namespace SerialServer

inductive Event (α β : Type*) where
  | received (x : α)
  | answered (x : α) (y : β)

variable {α β : Type*}

def Event.received? : Event α β → Option α
  | .received x => some x
  | .answered _ _ => none

def Event.answered? : Event α β → Option (α × β)
  | .received _ => none
  | .answered x y => some (x, y)

def received (log : List (Event α β)) : List α := log.filterMap Event.received?

def answered (log : List (Event α β)) : List (α × β) := log.filterMap Event.answered?

@[simp] theorem received_append (log events : List (Event α β)) :
    received (log ++ events) = received log ++ received events := List.filterMap_append

@[simp] theorem answered_append (log events : List (Event α β)) :
    answered (log ++ events) = answered log ++ answered events := List.filterMap_append

@[simp] theorem received_received (x : α) : received [(.received x : Event α β)] = [x] := rfl

@[simp] theorem answered_received (x : α) : answered [(.received x : Event α β)] = [] := rfl

@[simp] theorem received_answered (x : α) (y : β) : received [Event.answered x y] = [] := rfl

@[simp] theorem answered_answered (x : α) (y : β) : answered [Event.answered x y] = [(x, y)] := rfl

/-- At most one request is worked on, and the others follow in the order they came. -/
structure Valid (s : SerialServer α β) (log : List (Event α β)) : Prop where
  one : s.waiting.length + s.held.length + s.ready.length = if s.busy then 1 else 0
  idle : s.busy = false → s.deferred = []
  requests : received log = (answered log).map Prod.fst ++ s.waiting ++ s.held ++ s.deferred
  replies : (answered log).map Prod.snd = s.sent ++ s.ready

variable {s : SerialServer α β} {log : List (Event α β)}

theorem Valid.busy_of_pos (h : Valid s log)
    (hpos : 0 < s.waiting.length + s.held.length + s.ready.length) : s.busy = true := by
  have hone := h.one
  split at hone
  next hbusy => exact hbusy
  next => omega

theorem Valid.at_rest (h : Valid s log) (hbusy : s.busy = false) :
    s.waiting = [] ∧ s.held = [] ∧ s.ready = [] := by
  have hone := h.one
  rw [hbusy, if_neg (by decide)] at hone
  exact ⟨List.eq_nil_of_length_eq_zero (by omega), List.eq_nil_of_length_eq_zero (by omega),
    List.eq_nil_of_length_eq_zero (by omega)⟩

/-- At rest everything received was answered, and every answer sent. -/
theorem Valid.served (h : Valid s log) (hbusy : s.busy = false) :
    received log = (answered log).map Prod.fst ∧ s.sent = (answered log).map Prod.snd := by
  obtain ⟨hwaiting, hheld, hready⟩ := h.at_rest hbusy
  refine ⟨?_, ?_⟩
  · rw [h.requests, hwaiting, hheld, h.idle hbusy]
    simp
  · rw [h.replies, hready, List.append_nil]

theorem Valid.defer (h : Valid s log) (hbusy : s.busy = true) (x : α) :
    Valid { s with deferred := s.deferred ++ [x] } (log ++ [.received x]) where
  one := h.one
  idle := fun hrest => by rw [hbusy] at hrest; cases hrest
  requests := by simp [h.requests]
  replies := by simpa using h.replies

theorem Valid.start (h : Valid s log) (hbusy : s.busy = false) (x : α) :
    Valid { s with waiting := s.waiting ++ [x], busy := true } (log ++ [.received x]) := by
  obtain ⟨hwaiting, hheld, hready⟩ := h.at_rest hbusy
  refine ⟨by simp [hwaiting, hheld, hready], (fun hrest => by cases hrest), ?_, by simpa using h.replies⟩
  simp [h.requests, hwaiting, hheld, h.idle hbusy]

/-- A waiting request is alone. -/
theorem Valid.alone {x : α} {rest : List α} (h : Valid s log) (hx : s.waiting = x :: rest) :
    rest = [] ∧ s.held = [] ∧ s.ready = [] := by
  have hone := h.one
  rw [h.busy_of_pos (by rw [hx, List.length_cons]; omega), if_pos rfl, hx, List.length_cons] at hone
  exact ⟨List.eq_nil_of_length_eq_zero (by omega), List.eq_nil_of_length_eq_zero (by omega),
    List.eq_nil_of_length_eq_zero (by omega)⟩

theorem Valid.finish {x : α} {rest : List α} (h : Valid s log) (hx : s.waiting = x :: rest) (y : β) :
    Valid { s with waiting := rest, ready := s.ready ++ [y] } (log ++ [.answered x y]) := by
  obtain ⟨rfl, hheld, hready⟩ := h.alone hx
  have hone := h.one
  have hreq := h.requests
  have hrep := h.replies
  rw [hx, hheld, hready] at hone
  rw [hx, hheld] at hreq
  rw [hready] at hrep
  exact ⟨by simpa [hheld, hready] using hone, h.idle, by simpa [hheld] using hreq,
    by simpa [hready] using hrep⟩

theorem Valid.take {x : α} {rest : List α} (h : Valid s log) (hx : s.waiting = x :: rest) :
    Valid { s with waiting := rest, held := s.held ++ [x] } log := by
  obtain ⟨rfl, hheld, hready⟩ := h.alone hx
  have hone := h.one
  have hreq := h.requests
  rw [hx, hheld] at hone hreq
  exact ⟨by simpa [hheld, hready] using hone, h.idle, by simpa [hheld] using hreq, h.replies⟩

theorem Valid.answer {x : α} {before after : List α} (h : Valid s log) (hx : s.held = before ++ x :: after)
    (y : β) : Valid { s with held := before ++ after, ready := s.ready ++ [y] } (log ++ [.answered x y]) := by
  have hone := h.one
  rw [h.busy_of_pos (by rw [hx, List.length_append, List.length_cons]; omega), if_pos rfl, hx,
    List.length_append, List.length_cons] at hone
  have hwaiting : s.waiting = [] := List.eq_nil_of_length_eq_zero (by omega)
  have hready : s.ready = [] := List.eq_nil_of_length_eq_zero (by omega)
  obtain rfl : before = [] := List.eq_nil_of_length_eq_zero (by omega)
  obtain rfl : after = [] := List.eq_nil_of_length_eq_zero (by omega)
  have hone := h.one
  have hreq := h.requests
  have hrep := h.replies
  rw [hx, hwaiting, hready] at hone
  rw [hx, hwaiting] at hreq
  rw [hready] at hrep
  exact ⟨by simpa [hwaiting, hready] using hone, h.idle, by simpa [hwaiting] using hreq,
    by simpa [hready] using hrep⟩

/-- A reply that is ready is alone. -/
theorem Valid.last {y : β} {rest : List β} (h : Valid s log) (hy : s.ready = y :: rest) :
    rest = [] ∧ s.waiting = [] ∧ s.held = [] := by
  have hone := h.one
  rw [h.busy_of_pos (by rw [hy, List.length_cons]; omega), if_pos rfl, hy, List.length_cons] at hone
  exact ⟨List.eq_nil_of_length_eq_zero (by omega), List.eq_nil_of_length_eq_zero (by omega),
    List.eq_nil_of_length_eq_zero (by omega)⟩

theorem Valid.sendLast {y : β} {rest : List β} (h : Valid s log) (hy : s.ready = y :: rest)
    (hd : s.deferred = []) : Valid { s with ready := rest, sent := s.sent ++ [y], busy := false } log := by
  obtain ⟨rfl, hwaiting, hheld⟩ := h.last hy
  exact ⟨by simp [hwaiting, hheld], fun _ => hd, h.requests, by simpa [hy] using h.replies⟩

theorem Valid.sendNext {y : β} {rest : List β} {x : α} {xs : List α} (h : Valid s log)
    (hy : s.ready = y :: rest) (hd : s.deferred = x :: xs) : Valid { s with
      ready := rest, sent := s.sent ++ [y], waiting := s.waiting ++ [x], deferred := xs } log := by
  have hbusy := h.busy_of_pos (by rw [hy, List.length_cons]; omega)
  obtain ⟨rfl, hwaiting, hheld⟩ := h.last hy
  have hreq := h.requests
  rw [hwaiting, hheld, hd] at hreq
  refine ⟨by simp [hwaiting, hheld, hbusy], fun hrest => ?_, ?_, ?_⟩
  · rw [hbusy] at hrest
    cases hrest
  · simpa [hwaiting, hheld] using hreq
  · simpa [hy] using h.replies

/-- The deferred requests are answered at once, in their order, behind the reply that is sent. -/
theorem Valid.sendCancel {y : β} {rest : List β} (h : Valid s log) (hy : s.ready = y :: rest)
    (cancel : α → β) : Valid { s with
      ready := rest, sent := s.sent ++ [y] ++ s.deferred.map cancel, deferred := [], busy := false }
        (log ++ s.deferred.map fun x => .answered x (cancel x)) := by
  obtain ⟨rfl, hwaiting, hheld⟩ := h.last hy
  have hreceived : received (s.deferred.map fun x => Event.answered x (cancel x)) = [] := by
    simp [received, List.filterMap_map, Function.comp_def, Event.received?]
  have hanswered : answered (s.deferred.map fun x => Event.answered x (cancel x)) =
      s.deferred.map fun x => (x, cancel x) := by
    simp [answered, List.filterMap_map, Function.comp_def, Event.answered?]
  have hreq := h.requests
  rw [hwaiting, hheld] at hreq
  refine ⟨by simp [hwaiting, hheld], fun _ => rfl, ?_, ?_⟩
  · simp [hreceived, hanswered, hwaiting, hheld, Function.comp_def] at hreq ⊢
    exact hreq
  · simp [hanswered, h.replies, hy, Function.comp_def]

end SerialServer
