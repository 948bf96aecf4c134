import Katcp.DuplexData
import Katcp.Machine

namespace Katcp

section

/-- The results of `katcp.h`; `partly` is `KATCP_RESULT_PARTIAL`. -/
inductive CallResult where
  | ok | fail | invalid | partly | own | yield | pause
  deriving DecidableEq, Repr

def CallResult.code : CallResult → Int
  | .ok => 0
  | .fail => -1
  | .invalid => -2
  | .partly => -3
  | .own => 1
  | .yield => 2
  | .pause => 3

/-- The entry of `misc_result_table` for a result, should there be one. -/
def CallResult.name : CallResult → Option Text
  | .ok => some (textOf "ok")
  | .fail => some (textOf "fail")
  | .invalid => some (textOf "invalid")
  | .partly => some (textOf "partial")
  | _ => none

inductive MessageType where
  | request | reply | inform
  deriving DecidableEq, Repr

def MessageType.char : MessageType → Byte
  | .request => byte '?'
  | .reply => byte '!'
  | .inform => byte '#'

/-- The first argument of a message that the parser has accepted, as string functions see it. -/
structure SimplexMessage where
  type : MessageType
  name : Text
  deriving DecidableEq, Repr

def SimplexMessage.arg (m : SimplexMessage) : Text := m.type.char :: m.name

/-- `katcp_cmd`. Its cell is told from others by `cId`, counted up as cells are allocated. -/
structure SimplexCommand (κ : Type) where
  cId : Nat
  cName : Option Text
  cCall : κ
  cMode : Nat
  wildcard : Bool

/-- A reply that was not sent by a command itself. -/
structure SimplexReply where
  name : Text
  result : Text
  extra : Option Text
  deriving DecidableEq, Repr

/-- Where `dispatch_katcp` is for a connection: not running, about to look up, or in a command. -/
inductive DispatchPhase where
  | outside | looking | inside
  deriving DecidableEq, Repr

/-- The part of `katcp_shared` and `katcp_dispatch` that simplex dispatch uses; `waiting` are the
complete messages behind the one in `lReady`. -/
structure Simplex (κ : Type) where
  sCommands : List (SimplexCommand κ)
  sMode : Nat
  sSize : Nat
  allocated : Nat
  lReady : Option SimplexMessage
  waiting : List SimplexMessage
  dCurrent : Option κ
  dPause : Bool
  phase : DispatchPhase

inductive SimplexEvent (κ : Type) where
  | registered (c : SimplexCommand κ)
  | deregistered (id : Nat)
  | moded (mode : Nat)
  | arrived (m : SimplexMessage)
  | lookedUp (m : SimplexMessage) (found : Option (SimplexCommand κ))
  | called (call : κ)
  | returned (r : CallResult)
  | replied (reply : SimplexReply)
  | resumed

namespace Simplex

variable {κ : Type}

def startup : Simplex κ := ⟨[], 0, 1, 0, none, [], none, false, .outside⟩

/-- A command as its name is kept; `none` for a name that is refused. -/
def commandName : Text → Option Text
  | [] => none
  | c :: rest => some (if isType c then c :: rest else byte '?' :: c :: rest)

/-- The list with a new command: wildcards go to its end, unless it is empty. -/
def linkCommand (commands : List (SimplexCommand κ)) (c : SimplexCommand κ) : List (SimplexCommand κ) :=
  if c.wildcard && !commands.isEmpty then commands ++ [c] else c :: commands

/-- `register_flag_mode_katcp`, where `mode` is the value of the argument as an unsigned one. -/
def registerFlagMode (s : Simplex κ) (name : Option Text) (call : κ) (wildcard : Bool) (mode : Nat) :
    Simplex κ × List (SimplexEvent κ) :=
  if s.sSize ≤ mode then (s, [])
  else
    let add c := ({ s with sCommands := linkCommand s.sCommands c, allocated := s.allocated + 1 },
      [SimplexEvent.registered c])
    match name with
    | none => add ⟨s.allocated, none, call, mode, true⟩
    | some text =>
      match commandName text with
      | none => (s, [])
      | some kept => add ⟨s.allocated, some kept, call, mode, wildcard⟩

/-- `deregister_command_katcp`: the first cell of the list with the name goes. -/
def deregisterCommand (s : Simplex κ) (name : Option Text) : Simplex κ × List (SimplexEvent κ) :=
  match name.bind commandName with
  | none => (s, [])
  | some kept =>
    match s.sCommands.find? (·.cName = some kept) with
    | none => (s, [])
    | some c =>
      ({ s with sCommands := s.sCommands.eraseP (·.cName = some kept) }, [.deregistered c.cId])

/-- The test that `lookup_katcp` makes of each command. -/
def suits (mode : Nat) (arg : Text) (c : SimplexCommand κ) : Bool :=
  (c.cMode == 0 || c.cMode == mode) && (c.wildcard || c.cName == some arg)

/-- `extra_response_katcp`. -/
def extraResponse (s : Simplex κ) (r : CallResult) (extra : Option Text) : List SimplexReply :=
  if 0 < r.code then []
  else
    match s.lReady with
    | none => []
    | some m => [⟨byte '!' :: m.name, r.name.getD (textOf "invalid"), extra⟩]

/-- `call_katcp` up to the call of the command, which is absent when nothing matched. -/
def callCommand (s : Simplex κ) : Simplex κ × List (SimplexEvent κ) :=
  match s.dCurrent with
  | some call => ({ s with phase := .inside }, [.called call])
  | none =>
    match s.lReady with
    | some ⟨.request, _ :: _⟩ =>
      (s, (s.extraResponse .invalid (some (textOf "unknown command"))).map .replied)
    | _ => (s, [])

/-- One turn of the loop of `dispatch_katcp`: `lookup_katcp`, and `call_katcp` if it found work. -/
def lookup (s : Simplex κ) : Simplex κ × List (SimplexEvent κ) :=
  if s.dCurrent.isSome then s.callCommand
  else if s.dPause then ({ s with phase := .outside }, [])
  else
    match s.waiting with
    | [] => ({ s with lReady := none, phase := .outside }, [])
    | m :: rest =>
      let found := s.sCommands.find? (suits s.sMode m.arg)
      let s1 := { s with lReady := some m, waiting := rest, dCurrent := found.map SimplexCommand.cCall }
      let (s2, said) := s1.callCommand
      (s2, .lookedUp m found :: said)

/-- The rest of `call_katcp`, when the command has returned. -/
def finishCall (s : Simplex κ) (r : CallResult) : Simplex κ × List (SimplexEvent κ) :=
  let replies := s.extraResponse r none
  ({ s with
      dCurrent := if r = .yield then s.dCurrent else none
      dPause := if r = .pause then true else s.dPause
      phase := .looking }, .returned r :: replies.map .replied)

/-- `dispatch_katcp` up to its loop. -/
def enter (s : Simplex κ) : Simplex κ := if s.dPause then s else { s with phase := .looking }

end Simplex

/-- What happens to a connection. Registrations, changes of the mode, arrivals and resumptions
come at any time, also while a command runs. -/
inductive SimplexAction (κ : Type) where
  | register (name : Option Text) (call : κ) (wildcard : Bool) (mode : Nat)
  | deregister (name : Option Text)
  | expand (size : Nat)
  | change (mode : Nat)
  | arrive (m : SimplexMessage)
  | resume
  | dispatch
  | lookup
  | proceed (call : κ)
  | finish (r : CallResult)

variable {κ : Type}

def Simplex.act (s : Simplex κ) : SimplexAction κ → Option (Simplex κ × List (SimplexEvent κ))
  | .register name call wildcard mode => some (s.registerFlagMode name call wildcard mode)
  | .deregister name => some (s.deregisterCommand name)
  | .expand size => some ({ s with sSize := max s.sSize size }, [])
  | .change mode => if mode < s.sSize then some ({ s with sMode := mode }, [.moded mode]) else none
  | .arrive m => some ({ s with waiting := s.waiting ++ [m] }, [.arrived m])
  | .resume => some ({ s with dPause := false }, [.resumed])
  | .dispatch => if s.phase = .outside then some (s.enter, []) else none
  | .lookup => if s.phase = .looking then some s.lookup else none
  | .proceed call => if s.phase = .inside then some ({ s with dCurrent := some call }, []) else none
  | .finish r => if s.phase = .inside then some (s.finishCall r) else none

/-- A connection of its own or of a server, with what happened to it. -/
def simplexMachine (κ : Type) : Machine (Simplex κ) (SimplexAction κ) (SimplexEvent κ) where
  start := Simplex.startup
  step s a := (s.act a).map Prod.fst
  emits s a := ((s.act a).map Prod.snd).getD []

end

section

variable {κ : Type}

def presentAfter (present : List (SimplexCommand κ)) : SimplexEvent κ → List (SimplexCommand κ)
  | .registered c => present ++ [c]
  | .deregistered id => present.filter (·.cId ≠ id)
  | _ => present

/-- The commands registered and not deregistered since, oldest first. -/
def presentOf (log : List (SimplexEvent κ)) : List (SimplexCommand κ) := log.foldl presentAfter []

def modeAfter (mode : Nat) : SimplexEvent κ → Nat
  | .moded m => m
  | _ => mode

def modeOf (log : List (SimplexEvent κ)) : Nat := log.foldl modeAfter 0

def pausedAfter (paused : Bool) : SimplexEvent κ → Bool
  | .returned r => paused || r == .pause
  | .resumed => false
  | _ => paused

/-- A command has paused the connection, which was not resumed since. -/
def pausedOf (log : List (SimplexEvent κ)) : Bool := log.foldl pausedAfter false

def arrivalsOf (log : List (SimplexEvent κ)) : List SimplexMessage :=
  log.filterMap fun e => match e with | .arrived m => some m | _ => none

def repliesOf (log : List (SimplexEvent κ)) : List SimplexReply :=
  log.filterMap fun e => match e with | .replied r => some r | _ => none

/-- What became of a message that was looked up. -/
structure SimplexTask (κ : Type) where
  message : SimplexMessage
  found : Option (SimplexCommand κ)
  calls : List κ
  results : List CallResult
  replies : List SimplexReply

def noteTask : List (SimplexTask κ) → SimplexEvent κ → List (SimplexTask κ)
  | tasks, .lookedUp m found => ⟨m, found, [], [], []⟩ :: tasks
  | t :: rest, .called call => { t with calls := t.calls ++ [call] } :: rest
  | t :: rest, .returned r => { t with results := t.results ++ [r] } :: rest
  | t :: rest, .replied r => { t with replies := t.replies ++ [r] } :: rest
  | tasks, _ => tasks

/-- The messages that were looked up, the latest one first. -/
def tasksOf (log : List (SimplexEvent κ)) : List (SimplexTask κ) := log.foldl noteTask []

/-- Nothing matched the message, or the command has returned and does not run again. -/
def SimplexTask.Ended (t : SimplexTask κ) : Prop :=
  t.found = none ∨ ∃ r, t.results.getLast? = some r ∧ r ≠ .yield

/-- The automatic replies due for a message, where `answered` says which of those that nothing
matches have one. -/
def SimplexTask.due (answered : SimplexMessage → Bool) (t : SimplexTask κ) : List SimplexReply :=
  let name := byte '!' :: t.message.name
  match t.found with
  | none => if answered t.message then [⟨name, textOf "invalid", some (textOf "unknown command")⟩] else []
  | some _ => (t.results.getLast?.bind CallResult.name).toList.map fun result => ⟨name, result, none⟩

def SimplexCommand.valid (c : SimplexCommand κ) (mode : Nat) : Bool := c.cMode == 0 || c.cMode == mode

/-- The latest of the named commands that has the name, or else the first of the wildcards. -/
def choose (present : List (SimplexCommand κ)) (mode : Nat) (arg : Text) : Option (SimplexCommand κ) :=
  (present.reverse.find? fun c => !c.wildcard && c.valid mode && c.cName == some arg).or
    (present.find? fun c => c.wildcard && c.valid mode)

/-- What a connection keeps to: `answered` are the messages to which there is an automatic reply
when nothing matches them. -/
structure Dispatched (answered : SimplexMessage → Bool) (s : Simplex κ) (log : List (SimplexEvent κ)) : Prop where
  chosen : ∀ before m found after, log = before ++ .lookedUp m found :: after →
    found = choose (presentOf before) (modeOf before) m.arg
  running : ∀ before m found after, log = before ++ .lookedUp m found :: after → pausedOf before = false
  order : (tasksOf log).reverse.map (·.message) ++ s.waiting = arrivalsOf log
  given : ∀ t ∈ tasksOf log, t.calls.head? = t.found.map (·.cCall)
  single : ∀ t ∈ (tasksOf log).tail, t.Ended
  settled : ∀ t ∈ tasksOf log, t.Ended → t.replies = t.due answered
  sent : repliesOf log = (tasksOf log).reverse.flatMap (·.replies)

/-- A request that has a name. -/
def SimplexMessage.named (m : SimplexMessage) : Bool := m.type == .request && !m.name.isEmpty

end

section

variable {κ : Type} {s s' : Simplex κ} {log out : List (SimplexEvent κ)} {a : SimplexAction κ}
  {m : SimplexMessage}

/-- The replies to a message that nothing matches. -/
def unknownReplies (m : SimplexMessage) : List SimplexReply :=
  if m.named then [⟨byte '!' :: m.name, textOf "invalid", some (textOf "unknown command")⟩] else []

theorem callCommand_none (hcurrent : s.dCurrent = none) (hready : s.lReady = some m) :
    s.callCommand = (s, (unknownReplies m).map .replied) := by
  unfold Simplex.callCommand
  rw [hcurrent, hready]
  obtain ⟨type, name⟩ := m
  cases type <;> cases name <;> simp [unknownReplies, SimplexMessage.named, Simplex.extraResponse, hready,
    CallResult.code, CallResult.name]

/-- What a turn of the loop of `dispatch_katcp` does. -/
theorem lookup_cases (s : Simplex κ) :
    (∃ call, s.dCurrent = some call ∧ s.lookup = ({ s with phase := .inside }, [.called call])) ∨
    (s.dCurrent = none ∧ ∃ ready, s.lookup = ({ s with lReady := ready, phase := .outside }, [])) ∨
    (s.dCurrent = none ∧ s.dPause = false ∧ ∃ m rest, s.waiting = m :: rest ∧
      ((∃ c, s.sCommands.find? (Simplex.suits s.sMode m.arg) = some c ∧
          s.lookup = ({ s with lReady := some m, waiting := rest, dCurrent := some c.cCall, phase := .inside },
            [.lookedUp m (some c), .called c.cCall])) ∨
        (s.sCommands.find? (Simplex.suits s.sMode m.arg) = none ∧
          s.lookup = ({ s with lReady := some m, waiting := rest, dCurrent := none },
            .lookedUp m none :: (unknownReplies m).map .replied)))) := by
  rcases hcurrent : s.dCurrent with _ | call
  · refine .inr ?_
    by_cases hpause : s.dPause = true
    · exact .inl ⟨rfl, s.lReady, by simp [Simplex.lookup, hcurrent, hpause]⟩
    · have hfalse : s.dPause = false := Bool.eq_false_iff.mpr hpause
      rcases hwaiting : s.waiting with _ | ⟨m, rest⟩
      · exact .inl ⟨rfl, none, by simp [Simplex.lookup, hcurrent, hfalse, hwaiting]⟩
      · refine .inr ⟨rfl, hfalse, m, rest, rfl, ?_⟩
        rcases hfound : s.sCommands.find? (Simplex.suits s.sMode m.arg) with _ | c
        · refine .inr ⟨rfl, ?_⟩
          unfold Simplex.lookup
          simp only [hcurrent, hfalse, hwaiting, hfound, Option.isSome_none, Bool.false_eq_true, if_false,
            Option.map_none]
          rw [callCommand_none rfl rfl]
        · refine .inl ⟨c, rfl, ?_⟩
          unfold Simplex.lookup
          simp only [hcurrent, hfalse, hwaiting, hfound, Option.isSome_none, Bool.false_eq_true, if_false,
            Option.map_some]
          rfl
  · refine .inl ⟨call, rfl, ?_⟩
    simp [Simplex.lookup, Simplex.callCommand, hcurrent]

/-- What a registration does. -/
theorem registerFlagMode_cases (s : Simplex κ) (name : Option Text) (call : κ) (wildcard : Bool) (mode : Nat) :
    s.registerFlagMode name call wildcard mode = (s, []) ∨
      ∃ c, c.cId = s.allocated ∧ (c.wildcard = false → c.cName.isSome) ∧
        s.registerFlagMode name call wildcard mode =
          ({ s with sCommands := Simplex.linkCommand s.sCommands c, allocated := s.allocated + 1 }, [.registered c]) := by
  unfold Simplex.registerFlagMode
  by_cases hmode : s.sSize ≤ mode
  · rw [if_pos hmode]
    exact .inl rfl
  · rw [if_neg hmode]
    cases name with
    | none => exact .inr ⟨⟨s.allocated, none, call, mode, true⟩, rfl, fun h => by simp at h, rfl⟩
    | some text =>
      cases hkept : Simplex.commandName text with
      | none => exact .inl (by simp only [hkept])
      | some kept => exact .inr ⟨⟨s.allocated, some kept, call, mode, wildcard⟩, rfl, fun _ => rfl, by simp only [hkept]⟩

/-- What a deregistration does: it takes the first cell with a name. -/
theorem deregisterCommand_cases (s : Simplex κ) (name : Option Text) :
    s.deregisterCommand name = (s, []) ∨ ∃ before c after, s.sCommands = before ++ c :: after ∧
      s.deregisterCommand name = ({ s with sCommands := before ++ after }, [.deregistered c.cId]) := by
  unfold Simplex.deregisterCommand
  cases hname : name.bind Simplex.commandName with
  | none => exact .inl rfl
  | some kept =>
    cases hfound : s.sCommands.find? (·.cName = some kept) with
    | none => exact .inl (by simp only [hfound])
    | some c =>
      obtain ⟨hc, before, after, hcommands, hbefore⟩ := List.find?_eq_some_iff_append.mp hfound
      refine .inr ⟨before, c, after, hcommands, ?_⟩
      have herase : s.sCommands.eraseP (·.cName = some kept) = before ++ after := by
        rw [hcommands, List.eraseP_append_right _ (by simpa using hbefore), List.eraseP_cons_of_pos (by simpa using hc)]
      simp only [hfound, herase]

theorem presentOf_append (log out : List (SimplexEvent κ)) :
    presentOf (log ++ out) = out.foldl presentAfter (presentOf log) := List.foldl_append

theorem modeOf_append (log out : List (SimplexEvent κ)) : modeOf (log ++ out) = out.foldl modeAfter (modeOf log) :=
  List.foldl_append

theorem pausedOf_append (log out : List (SimplexEvent κ)) :
    pausedOf (log ++ out) = out.foldl pausedAfter (pausedOf log) := List.foldl_append

theorem tasksOf_append (log out : List (SimplexEvent κ)) :
    tasksOf (log ++ out) = out.foldl noteTask (tasksOf log) := List.foldl_append

/-- What the list of commands is made of, beside the mode and the flag that are read with it. -/
structure CommandsKept (s : Simplex κ) (log : List (SimplexEvent κ)) : Prop where
  commands : s.sCommands =
    ((presentOf log).filter (!·.wildcard)).reverse ++ (presentOf log).filter (·.wildcard)
  fresh : ∀ c ∈ presentOf log, c.cId < s.allocated
  apart : (presentOf log).Pairwise (·.cId ≠ ·.cId)
  mode : modeOf log = s.sMode
  paused : pausedOf log = s.dPause

/-- A fold over events that it passes by. -/
theorem foldl_unchanged {β : Type} {f : β → SimplexEvent κ → β} (h : ∀ e ∈ out, ∀ b, f b e = b) (b : β) :
    out.foldl f b = b := by
  induction out generalizing b with
  | nil => rfl
  | cons e out ih =>
    rw [List.foldl_cons, h e (List.mem_cons_self ..)]
    exact ih (fun e he => h e (List.mem_cons_of_mem _ he)) b

theorem CommandsKept.registered {c : SimplexCommand κ} (h : CommandsKept s log) (hid : c.cId = s.allocated) :
    CommandsKept { s with sCommands := Simplex.linkCommand s.sCommands c, allocated := s.allocated + 1 }
      (log ++ [.registered c]) := by
  have hpresent : presentOf (log ++ [.registered c]) = presentOf log ++ [c] := presentOf_append ..
  refine ⟨?_, ?_, ?_, ?_, ?_⟩
  · rw [hpresent, List.filter_append, List.filter_append, List.reverse_append]
    dsimp only
    rw [h.commands]
    unfold Simplex.linkCommand
    cases hwild : c.wildcard with
    | false => simp [hwild]
    | true =>
      by_cases hempty : ((presentOf log).filter (!·.wildcard)).reverse ++ (presentOf log).filter (·.wildcard) = []
      · rw [hempty]
        simp [hwild, (List.append_eq_nil_iff.mp hempty).2, List.reverse_eq_nil_iff.mp (List.append_eq_nil_iff.mp hempty).1]
      · have hcond : (true && !(((presentOf log).filter (!·.wildcard)).reverse ++
            (presentOf log).filter (·.wildcard)).isEmpty) = true := by
          simpa using hempty
        rw [if_pos hcond]
        simp [hwild]
  · intro b hb
    rw [hpresent, List.mem_append, List.mem_singleton] at hb
    dsimp only
    rcases hb with hb | rfl
    · have hlt := h.fresh b hb
      omega
    · omega
  · rw [hpresent, List.pairwise_append]
    refine ⟨h.apart, List.pairwise_singleton .., fun b hb d hd => ?_⟩
    have hlt := h.fresh b hb
    rw [List.mem_singleton.mp hd, hid]
    omega
  · rw [modeOf_append]
    exact h.mode
  · rw [pausedOf_append]
    exact h.paused

theorem CommandsKept.perm (h : CommandsKept s log) : s.sCommands.Perm (presentOf log) := by
  rw [h.commands]
  refine ((List.reverse_perm _).append_right _).trans ?_
  have hperm := List.filter_append_perm (fun c : SimplexCommand κ => !c.wildcard) (presentOf log)
  simpa using hperm

/-- The cell taken out of the list is the one with its number. -/
theorem CommandsKept.taken {before after : List (SimplexCommand κ)} {c : SimplexCommand κ} (h : CommandsKept s log)
    (hcommands : s.sCommands = before ++ c :: after) :
    before ++ after = s.sCommands.filter (·.cId ≠ c.cId) := by
  have hapart : s.sCommands.Pairwise (·.cId ≠ ·.cId) := (h.perm.pairwise_iff fun hne => hne.symm).mpr h.apart
  rw [hcommands, List.pairwise_append, List.pairwise_cons] at hapart
  obtain ⟨_, ⟨hafter, _⟩, hbefore⟩ := hapart
  have hleft : before.filter (·.cId ≠ c.cId) = before :=
    List.filter_eq_self.mpr fun b hb => by simpa using hbefore b hb c (List.mem_cons_self ..)
  have hright : after.filter (·.cId ≠ c.cId) = after :=
    List.filter_eq_self.mpr fun b hb => by simpa using (hafter b hb).symm
  rw [hcommands, List.filter_append, List.filter_cons, hleft, hright]
  simp

theorem CommandsKept.deregistered {before after : List (SimplexCommand κ)} {c : SimplexCommand κ}
    (h : CommandsKept s log) (hcommands : s.sCommands = before ++ c :: after) :
    CommandsKept { s with sCommands := before ++ after } (log ++ [.deregistered c.cId]) := by
  have hpresent : presentOf (log ++ [.deregistered c.cId]) = (presentOf log).filter (·.cId ≠ c.cId) :=
    presentOf_append ..
  refine ⟨?_, ?_, ?_, ?_, ?_⟩
  · rw [hpresent]
    dsimp only
    rw [h.taken hcommands, h.commands, List.filter_append, List.filter_reverse, List.filter_comm,
      List.filter_comm _ SimplexCommand.wildcard]
  · intro b hb
    rw [hpresent] at hb
    exact h.fresh b (List.mem_of_mem_filter hb)
  · rw [hpresent]
    exact h.apart.filter _
  · rw [modeOf_append]
    exact h.mode
  · rw [pausedOf_append]
    exact h.paused

/-- The commands do not change with what happens to a message. -/
theorem CommandsKept.aside (h : CommandsKept s log) (hcommands : s'.sCommands = s.sCommands)
    (hallocated : s'.allocated = s.allocated) (hpresent : presentOf (log ++ out) = presentOf log)
    (hmode : modeOf (log ++ out) = s'.sMode) (hpaused : pausedOf (log ++ out) = s'.dPause) :
    CommandsKept s' (log ++ out) := by
  refine ⟨?_, ?_, ?_, hmode, hpaused⟩
  · rw [hcommands, hpresent]
    exact h.commands
  · rw [hallocated, hpresent]
    exact h.fresh
  · rw [hpresent]
    exact h.apart

theorem foldl_replied {β : Type} {f : β → SimplexEvent κ → β} (h : ∀ r b, f b (.replied r) = b) (b : β)
    (replies : List SimplexReply) : (replies.map SimplexEvent.replied).foldl f b = b := by
  apply foldl_unchanged
  intro e he b
  obtain ⟨r, _, rfl⟩ := List.mem_map.mp he
  exact h r b

theorem CommandsKept.step (h : CommandsKept s log) (hs : s.act a = some (s', out)) : CommandsKept s' (log ++ out) := by
  cases a with
  | register name call wildcard mode =>
    have hs := Option.some.inj hs
    rcases registerFlagMode_cases s name call wildcard mode with he | ⟨c, hid, _, he⟩
    · rw [he] at hs
      cases hs
      rwa [List.append_nil]
    · rw [he] at hs
      cases hs
      exact h.registered hid
  | deregister name =>
    have hs := Option.some.inj hs
    rcases deregisterCommand_cases s name with he | ⟨before, c, after, hcommands, he⟩
    · rw [he] at hs
      cases hs
      rwa [List.append_nil]
    · rw [he] at hs
      cases hs
      exact h.deregistered hcommands
  | expand size =>
    cases hs
    rw [List.append_nil]
    exact ⟨h.commands, h.fresh, h.apart, h.mode, h.paused⟩
  | change mode =>
    obtain ⟨_, hs⟩ := Option.ite_none_right_eq_some.mp hs
    cases Option.some.inj hs
    exact h.aside rfl rfl (presentOf_append ..) (modeOf_append ..) ((pausedOf_append ..).trans h.paused)
  | arrive m =>
    cases hs
    exact h.aside rfl rfl (presentOf_append ..) ((modeOf_append ..).trans h.mode) ((pausedOf_append ..).trans h.paused)
  | resume =>
    cases hs
    exact h.aside rfl rfl (presentOf_append ..) ((modeOf_append ..).trans h.mode) (pausedOf_append ..)
  | dispatch =>
    obtain ⟨_, hs⟩ := Option.ite_none_right_eq_some.mp hs
    cases Option.some.inj hs
    rw [List.append_nil]
    unfold Simplex.enter
    split
    · exact h
    · exact ⟨h.commands, h.fresh, h.apart, h.mode, h.paused⟩
  | lookup =>
    obtain ⟨_, hs⟩ := Option.ite_none_right_eq_some.mp hs
    have hs := Option.some.inj hs
    rcases lookup_cases s with ⟨call, _, he⟩ | ⟨_, ready, he⟩ | ⟨_, _, m, rest, _, ⟨c, _, he⟩ | ⟨_, he⟩⟩
    · rw [he] at hs
      cases hs
      exact h.aside rfl rfl (presentOf_append ..) ((modeOf_append ..).trans h.mode) ((pausedOf_append ..).trans h.paused)
    · rw [he] at hs
      cases hs
      rw [List.append_nil]
      exact ⟨h.commands, h.fresh, h.apart, h.mode, h.paused⟩
    · rw [he] at hs
      cases hs
      exact h.aside rfl rfl (presentOf_append ..) ((modeOf_append ..).trans h.mode) ((pausedOf_append ..).trans h.paused)
    · rw [he] at hs
      cases hs
      refine h.aside rfl rfl ?_ ?_ ?_
      · rw [presentOf_append]
        exact foldl_replied (fun _ _ => rfl) _ _
      · rw [modeOf_append]
        exact (foldl_replied (fun _ _ => rfl) _ _).trans h.mode
      · rw [pausedOf_append]
        exact (foldl_replied (fun _ _ => rfl) _ _).trans h.paused
  | proceed call =>
    obtain ⟨_, hs⟩ := Option.ite_none_right_eq_some.mp hs
    cases Option.some.inj hs
    rw [List.append_nil]
    exact ⟨h.commands, h.fresh, h.apart, h.mode, h.paused⟩
  | finish r =>
    obtain ⟨_, hs⟩ := Option.ite_none_right_eq_some.mp hs
    cases Option.some.inj hs
    refine h.aside rfl rfl ?_ ?_ ?_
    · rw [presentOf_append]
      exact foldl_replied (fun _ _ => rfl) _ _
    · rw [modeOf_append]
      exact (foldl_replied (fun _ _ => rfl) _ _).trans h.mode
    · rw [pausedOf_append]
      refine (foldl_replied (fun _ _ => rfl) _ _).trans ?_
      rw [h.paused]
      cases r <;> simp [pausedAfter]

/-- The search of the list finds what the history says. -/
theorem CommandsKept.find? (h : CommandsKept s log) (arg : Text) :
    s.sCommands.find? (Simplex.suits s.sMode arg) = choose (presentOf log) (modeOf log) arg := by
  have hnamed : ∀ c : SimplexCommand κ, (decide ((!c.wildcard) = true ∧ Simplex.suits s.sMode arg c = true)) =
      (!c.wildcard && c.valid s.sMode && c.cName == some arg) := by
    intro c
    rw [Bool.decide_and, Bool.decide_eq_true, Bool.decide_eq_true, Bool.and_assoc]
    unfold Simplex.suits
    cases c.wildcard <;> rfl
  have hwild : ∀ c : SimplexCommand κ, (decide (c.wildcard = true ∧ Simplex.suits s.sMode arg c = true)) =
      (c.wildcard && c.valid s.sMode) := by
    intro c
    rw [Bool.decide_and, Bool.decide_eq_true, Bool.decide_eq_true]
    unfold Simplex.suits
    cases c.wildcard with
    | false => rfl
    | true => exact Bool.and_true _
  unfold choose
  rw [h.commands, h.mode, List.find?_append, ← List.filter_reverse, List.find?_filter, List.find?_filter,
    funext hnamed, funext hwild]

/-- A look-up in the history of a step is one of the earlier history or of the step. -/
theorem lookedUp_append {before after : List (SimplexEvent κ)} {found : Option (SimplexCommand κ)}
    (h : log ++ out = before ++ .lookedUp m found :: after) :
    (∃ rest, log = before ++ .lookedUp m found :: rest) ∨ ∃ mid, before = log ++ mid ∧ out = mid ++ .lookedUp m found :: after := by
  rcases List.append_eq_append_iff.mp h with ⟨mid, hbefore, hout⟩ | ⟨mid, hlog, hrest⟩
  · exact .inr ⟨mid, hbefore, hout⟩
  · cases mid with
    | nil =>
      rw [List.append_nil] at hlog
      exact .inr ⟨[], by rw [hlog, List.append_nil], by simpa using hrest.symm⟩
    | cons e mid =>
      obtain ⟨rfl, _⟩ := List.cons.inj hrest
      exact .inl ⟨mid, hlog⟩

/-- Each look-up finds what is due, while the connection is not paused. -/
def LookupsKept (log : List (SimplexEvent κ)) : Prop :=
  ∀ before m found after, log = before ++ .lookedUp m found :: after →
    found = choose (presentOf before) (modeOf before) m.arg ∧ pausedOf before = false

theorem LookupsKept.append (h : LookupsKept log) (hout : ∀ mid m found after, out = mid ++ .lookedUp m found :: after →
    mid = [] ∧ found = choose (presentOf log) (modeOf log) m.arg ∧ pausedOf log = false) : LookupsKept (log ++ out) := by
  intro before m found after hsplit
  rcases lookedUp_append hsplit with ⟨rest, hlog⟩ | ⟨mid, hbefore, hmid⟩
  · exact h before m found rest hlog
  · obtain ⟨rfl, hfound⟩ := hout mid m found after hmid
    rw [hbefore, List.append_nil]
    exact hfound

theorem LookupsKept.quiet (h : LookupsKept log) (hout : ∀ m found, .lookedUp m found ∉ out) : LookupsKept (log ++ out) := by
  apply h.append
  intro mid m found after hmid
  exact absurd (hmid ▸ List.mem_append_right mid (List.mem_cons_self ..)) (hout m found)

/-- The actions other than turns of the loop look nothing up. -/
theorem lookedUp_lookup (hs : s.act a = some (s', out)) {found : Option (SimplexCommand κ)}
    (h : .lookedUp m found ∈ out) : a = .lookup ∧ s.phase = .looking ∧ s.lookup = (s', out) := by
  cases a with
  | register name call wildcard mode =>
    have hs := Option.some.inj hs
    rcases registerFlagMode_cases s name call wildcard mode with he | ⟨c, _, _, he⟩ <;>
    · rw [he] at hs
      cases hs
      simp at h
  | deregister name =>
    have hs := Option.some.inj hs
    rcases deregisterCommand_cases s name with he | ⟨before, c, after, _, he⟩ <;>
    · rw [he] at hs
      cases hs
      simp at h
  | lookup =>
    obtain ⟨hphase, hs⟩ := Option.ite_none_right_eq_some.mp hs
    exact ⟨rfl, hphase, Option.some.inj hs⟩
  | finish r =>
    obtain ⟨_, hs⟩ := Option.ite_none_right_eq_some.mp hs
    cases Option.some.inj hs
    simp at h
  | expand size | arrive m | resume =>
    cases hs
    simp at h
  | change mode | dispatch | proceed call =>
    obtain ⟨_, hs⟩ := Option.ite_none_right_eq_some.mp hs
    cases Option.some.inj hs
    simp at h

theorem LookupsKept.step (h : LookupsKept log) (hc : CommandsKept s log) (hs : s.act a = some (s', out)) :
    LookupsKept (log ++ out) := by
  by_cases hquiet : ∀ m found, .lookedUp m found ∉ out
  · exact h.quiet hquiet
  · push Not at hquiet
    obtain ⟨m, found, hmem⟩ := hquiet
    obtain ⟨rfl, _, hlookup⟩ := lookedUp_lookup hs hmem
    rcases lookup_cases s with ⟨call, _, he⟩ | ⟨_, ready, he⟩ | ⟨_, hpause, n, rest, _, ⟨c, hfound, he⟩ | ⟨hfound, he⟩⟩
    · rw [he] at hlookup
      cases hlookup
      simp at hmem
    · rw [he] at hlookup
      cases hlookup
      simp at hmem
    · rw [he] at hlookup
      cases hlookup
      apply h.append
      intro mid m' found' after hmid
      rcases List.cons_eq_append_iff.mp hmid with ⟨rfl, hhead⟩ | ⟨mid', rfl, hrest⟩
      · cases (List.cons.inj hhead).1
        exact ⟨rfl, hfound.symm.trans (hc.find? n.arg), hc.paused.trans hpause⟩
      · simp [List.cons_eq_append_iff] at hrest
    · rw [he] at hlookup
      cases hlookup
      apply h.append
      intro mid m' found' after hmid
      rcases List.cons_eq_append_iff.mp hmid with ⟨rfl, hhead⟩ | ⟨mid', rfl, hrest⟩
      · cases (List.cons.inj hhead).1
        exact ⟨rfl, hfound.symm.trans (hc.find? n.arg), hc.paused.trans hpause⟩
      · have hmem' : SimplexEvent.lookedUp m' found' ∈ (unknownReplies n).map .replied :=
          hrest ▸ List.mem_append_right mid' (List.mem_cons_self ..)
        simp at hmem'

end

end Katcp
