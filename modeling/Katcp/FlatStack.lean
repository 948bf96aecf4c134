import Katcp.Machine
import Mathlib.Logic.Function.Basic

namespace Katcp

open Function

/-- The stack of current clients: what lies in memory from the start of its block on, whatever it
is, the level of the current client and the number of entries allocated. -/
structure Stories where
  sThis : Nat → Option Nat
  sLevel : Int
  sStories : Int

/-- `startup_duplex_katcp`; the block is as it was found. -/
def startupDuplex (memory : Nat → Option Nat) (stories : Nat) : Stories := ⟨memory, -1, stories⟩

/-- `KATCP_FLAT_STACK`. -/
def flatStack : Nat := 4

/-- No result means that the process is aborted. -/
def pushFlat (s : Stories) (fx : Nat) (set : Bool) : Option (Int × Stories) :=
  if set = true ∧ s.sLevel ≥ 0 then none
  else if s.sLevel ≥ s.sStories then none
  else some (0, { s with
    sLevel := s.sLevel + 1
    sThis := update s.sThis (s.sLevel + 1).toNat (some fx) })

def popFlat (s : Stories) (fx : Option Nat) : Option (Int × Stories) :=
  if s.sLevel < 0 then none
  else if fx.isSome ∧ s.sThis s.sLevel.toNat ≠ fx then some (-1, s)
  else some (0, { s with sThis := update s.sThis s.sLevel.toNat none, sLevel := s.sLevel - 1 })

/-- The two functions that push a client. -/
inductive Pusher where
  | wakeEndpointPeer
  | triggerConnect
  deriving DecidableEq

/-- Where a function that pushes is called. Endpoints are run by the main loop only. A client is
configured by the main loop or by the handlers that a wake function calls, and what is called for
each version variable then only queues a message. -/
def Pusher.calledFrom : Pusher → Option Pusher → Bool
  | .wakeEndpointPeer, within => within == none
  | .triggerConnect, within => within != some .triggerConnect

/-- A call that has not returned: its client, and the stack before it pushed. -/
structure FlatFrame where
  pusher : Pusher
  flat : Nat
  before : Stories

/-- The stack with the calls under way, the innermost first. -/
structure FlatNest where
  stories : Stories
  frames : List FlatFrame

def FlatNest.within (n : FlatNest) : Option Pusher := n.frames.head?.map FlatFrame.pusher

inductive NestAction where
  | enter (pusher : Pusher) (fx : Nat)
  | leave

def enterFlat (n : FlatNest) (pusher : Pusher) (fx : Nat) : Option FlatNest :=
  if pusher.calledFrom n.within then
    (pushFlat n.stories fx (pusher == .wakeEndpointPeer)).map fun (_, s) =>
      ⟨s, ⟨pusher, fx, n.stories⟩ :: n.frames⟩
  else none

def leaveFlat (n : FlatNest) : Option FlatNest :=
  match n.frames with
  | [] => none
  | frame :: rest => (popFlat n.stories (some frame.flat)).map fun (_, s) => ⟨s, rest⟩

def nestStep (n : FlatNest) : NestAction → Option FlatNest
  | .enter pusher fx => enterFlat n pusher fx
  | .leave => leaveFlat n

def nestMachine (memory : Nat → Option Nat) : Machine FlatNest NestAction Unit :=
  ⟨⟨startupDuplex memory flatStack, []⟩, nestStep, fun _ _ => []⟩

variable {memory : Nat → Option Nat} {s t : Stories} {n : FlatNest} {frame : FlatFrame} {frames : List FlatFrame}
  {pusher : Pusher} {fx : Nat}

/-- Two stacks that are the same up to the level of the current client. -/
structure SameStack (s t : Stories) : Prop where
  level : s.sLevel = t.sLevel
  stories : s.sStories = t.sStories
  entries : ∀ i : Nat, (i : Int) ≤ s.sLevel → s.sThis i = t.sThis i

/-- The clients of the calls under way are on the stack, over what was there before. -/
def Stacked (s : Stories) : List FlatFrame → Prop
  | [] => s.sLevel = -1 ∧ s.sStories = flatStack
  | frame :: rest => s.sLevel = rest.length ∧ s.sStories = flatStack ∧
      s.sThis rest.length = some frame.flat ∧ (∀ i, i < rest.length → s.sThis i = frame.before.sThis i) ∧
      Stacked frame.before rest

theorem Stacked.level (h : Stacked s frames) : s.sLevel = frames.length - 1 := by
  cases frames with
  | nil => exact h.1
  | cons frame rest => rw [h.1, List.length_cons, Int.natCast_succ, Int.add_sub_cancel]

theorem Stacked.stories (h : Stacked s frames) : s.sStories = flatStack := by
  cases frames with
  | nil => exact h.2
  | cons frame rest => exact h.2.1

theorem Stacked.same (h : Stacked t frames) (hs : SameStack s t) : Stacked s frames := by
  cases frames with
  | nil => exact ⟨hs.level.trans h.1, hs.stories.trans h.2⟩
  | cons frame rest =>
    obtain ⟨hlevel, hstories, htop, hbelow, hbefore⟩ := h
    have hread := hs.entries
    rw [hs.level, hlevel] at hread
    refine ⟨hs.level.trans hlevel, hs.stories.trans hstories, ?_, fun i hi => ?_, hbefore⟩
    · rw [hread rest.length (Int.le_refl _), htop]
    · rw [hread i (by omega), hbelow i hi]

/-- A push goes into the entry above the current client. -/
theorem Stacked.push (h : Stacked s frames) (hroom : frames.length ≤ flatStack) (hset : pusher = .wakeEndpointPeer →
    frames = []) : ∃ t, pushFlat s fx (pusher == .wakeEndpointPeer) = some (0, t) ∧
      t.sLevel = frames.length ∧ Stacked t (⟨pusher, fx, s⟩ :: frames) := by
  have hlevel := h.level
  have hnext : (s.sLevel + 1).toNat = frames.length := by omega
  have hfree : ¬ ((pusher == .wakeEndpointPeer) = true ∧ s.sLevel ≥ 0) := by
    rintro ⟨hp, hge⟩
    rw [hset (beq_iff_eq.mp hp)] at hlevel
    simp only [List.length_nil] at hlevel
    omega
  rw [pushFlat, if_neg hfree, if_neg (by rw [h.stories]; omega), hnext]
  refine ⟨_, rfl, by simp only; omega, by simp only; omega, h.stories, update_self .., fun i hi => ?_, h⟩
  exact update_of_ne (Nat.ne_of_lt hi) ..

/-- A pop takes the client of the innermost call off, and the stack is as it was before its push. -/
theorem Stacked.pop (h : Stacked s (frame :: frames)) : ∃ t, popFlat s (some frame.flat) = some (0, t) ∧
    SameStack t frame.before ∧ Stacked t frames := by
  obtain ⟨hlevel, hstories, htop, hbelow, hbefore⟩ := h
  have hsame : SameStack { s with sThis := update s.sThis frames.length none, sLevel := s.sLevel - 1 }
      frame.before := by
    refine ⟨?_, hstories.trans hbefore.stories.symm, fun i hi => ?_⟩
    · rw [hbefore.level, hlevel]
    · have hi : (i : Int) ≤ s.sLevel - 1 := hi
      have hlt : i < frames.length := by omega
      exact (update_of_ne (Nat.ne_of_lt hlt) ..).trans (hbelow i hlt)
  refine ⟨_, ?_, hsame, hbefore.same hsame⟩
  rw [popFlat, if_neg (by omega), hlevel, Int.toNat_natCast, htop, if_neg (by simp)]

/-- The calls under way: at most a wake function, and within it one connect. -/
def Performed (frames : List FlatFrame) : Prop :=
  frames = [] ∨ (∃ frame, frames = [frame]) ∨
    ∃ inner outer, frames = [inner, outer] ∧ inner.pusher = .triggerConnect ∧ outer.pusher = .wakeEndpointPeer

structure NestInv (n : FlatNest) : Prop where
  stacked : Stacked n.stories n.frames
  performed : Performed n.frames

theorem Performed.called (h : Performed frames) (hc : pusher.calledFrom (frames.head?.map FlatFrame.pusher) = true)
    (frame : FlatFrame) (hframe : frame.pusher = pusher) :
    Performed (frame :: frames) ∧ frames.length < flatStack ∧ (pusher = .wakeEndpointPeer → frames = []) := by
  rcases h with rfl | ⟨outer, rfl⟩ | ⟨inner, outer, rfl, hinner, -⟩
  · exact ⟨Or.inr (Or.inl ⟨frame, rfl⟩), by decide, fun _ => rfl⟩
  · cases pusher with
    | wakeEndpointPeer => simp [Pusher.calledFrom] at hc
    | triggerConnect =>
      refine ⟨Or.inr (Or.inr ⟨frame, outer, rfl, hframe, ?_⟩), (by decide : 1 < 4), nofun⟩
      cases houter : outer.pusher with
      | wakeEndpointPeer => rfl
      | triggerConnect => simp [Pusher.calledFrom, houter] at hc
  · cases pusher with
    | wakeEndpointPeer => simp [Pusher.calledFrom] at hc
    | triggerConnect => simp [Pusher.calledFrom, hinner] at hc

theorem Performed.tail (h : Performed (frame :: frames)) : Performed frames := by
  rcases h with he | ⟨outer, he⟩ | ⟨inner, outer, he, -, -⟩
  · cases he
  · cases he
    exact Or.inl rfl
  · cases he
    exact Or.inr (Or.inl ⟨outer, rfl⟩)

theorem nest_keeps (memory : Nat → Option Nat) :
    (nestMachine memory).Keeps (fun _ _ => True) fun n _ => NestInv n := by
  rintro n log (⟨pusher, fx⟩ | _) n' h - hstep
  · unfold nestMachine nestStep enterFlat at hstep
    dsimp only at hstep
    split at hstep
    next hcalled =>
      obtain ⟨⟨r, s⟩, hpush, he⟩ := Option.map_eq_some_iff.mp hstep
      obtain ⟨hp, hroom, hset⟩ := h.performed.called hcalled ⟨pusher, fx, n.stories⟩ rfl
      obtain ⟨t, ht, -, hstacked⟩ := @Stacked.push _ _ _ fx h.stacked (Nat.le_of_lt hroom) hset
      rw [hpush] at ht
      cases ht
      cases he
      exact ⟨hstacked, hp⟩
    next => cases hstep
  · unfold nestMachine nestStep leaveFlat at hstep
    dsimp only at hstep
    split at hstep
    next => cases hstep
    next frame rest hframes =>
      obtain ⟨⟨r, s⟩, hpop, he⟩ := Option.map_eq_some_iff.mp hstep
      obtain ⟨hstacked, hp⟩ := h
      rw [hframes] at hstacked hp
      obtain ⟨t, ht, -, hrest⟩ := hstacked.pop
      rw [hpop] at ht
      cases ht
      cases he
      exact ⟨hrest, hp.tail⟩

theorem nest_start (memory : Nat → Option Nat) : NestInv (nestMachine memory).start :=
  ⟨⟨rfl, rfl⟩, Or.inl rfl⟩

/-- In every state of the calls, a push where the code makes one goes into an entry of the block,
and the pop of the innermost call leaves the stack as it was before the push. -/
theorem nested_flats_fit {memory : Nat → Option Nat} {n : FlatNest} {log : List Unit}
    (h : (nestMachine memory).Runs (fun _ _ => True) n log) :
    (∀ (pusher : Pusher) (fx : Nat), pusher.calledFrom n.within = true →
      ∃ s, pushFlat n.stories fx (pusher == .wakeEndpointPeer) = some (0, s) ∧
        0 ≤ s.sLevel ∧ s.sLevel < flatStack ∧ s.sThis s.sLevel.toNat = some fx) ∧
      ∀ frame rest, n.frames = frame :: rest →
        ∃ s, popFlat n.stories (some frame.flat) = some (0, s) ∧ SameStack s frame.before := by
  have hinv := h.invariant (fun n _ => NestInv n) (nest_start memory) (nest_keeps memory)
  refine ⟨fun pusher fx hcalled => ?_, fun frame rest hframes => ?_⟩
  · obtain ⟨-, hroom, hset⟩ := hinv.performed.called hcalled ⟨pusher, fx, n.stories⟩ rfl
    obtain ⟨s, hs, hlevel, -, -, htop, -⟩ := @Stacked.push _ _ _ fx hinv.stacked (Nat.le_of_lt hroom) hset
    refine ⟨s, hs, by omega, by omega, ?_⟩
    rw [hlevel, Int.toNat_natCast]
    exact htop
  · have hstacked := hinv.stacked
    rw [hframes] at hstacked
    obtain ⟨s, hs, hsame, -⟩ := hstacked.pop
    exact ⟨s, hs, hsame⟩

/-- A client is woken and configures another. -/
theorem nested_flats_fit_connect : ∃ n : FlatNest, n.frames.length = 2 ∧ ∀ frame rest, n.frames = frame :: rest →
    ∃ s, popFlat n.stories (some frame.flat) = some (0, s) ∧ SameStack s frame.before :=
  ⟨_, rfl, (nested_flats_fit (Machine.Runs.exec (.start (m := nestMachine fun _ => none))
    [.enter .wakeEndpointPeer 1, .enter .triggerConnect 2] rfl (Machine.meets_true _ _ _))).2⟩

/-- The test is made before the level goes up: with a client in the last entry, a push is accepted
and goes behind the block. -/
theorem pushFlat_behind (hlevel : s.sLevel = s.sStories - 1) :
    ∃ t, pushFlat s fx false = some (0, t) ∧ t.sLevel = t.sStories := by
  rw [pushFlat, if_neg (by simp), if_neg (by omega)]
  exact ⟨_, rfl, by simp only; omega⟩

end Katcp
