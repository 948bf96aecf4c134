import Mathlib.Data.List.Basic

/-- A machine that takes actions, some of which may be impossible in a state, and says
something at each. -/
structure Machine (σ α ω : Type*) where
  start : σ
  step : σ → α → Option σ
  emits : σ → α → List ω

namespace Machine

variable {σ α ω : Type*}

/-- The states that actions which all meet `ok` lead to, with what was said on the way. -/
inductive Runs (m : Machine σ α ω) (ok : σ → α → Prop) : σ → List ω → Prop
  | start : Runs m ok m.start []
  | step {s s' : σ} {log : List ω} {a : α} : Runs m ok s log → ok s a → m.step s a = some s' →
      Runs m ok s' (log ++ m.emits s a)

/-- Every action that meets `ok` keeps the invariant. -/
def Keeps (m : Machine σ α ω) (ok : σ → α → Prop) (inv : σ → List ω → Prop) : Prop :=
  ∀ s log a s', inv s log → ok s a → m.step s a = some s' → inv s' (log ++ m.emits s a)

variable {m : Machine σ α ω} {ok : σ → α → Prop} {s : σ} {log : List ω}

theorem Runs.invariant (h : m.Runs ok s log) (inv : σ → List ω → Prop) (hstart : inv m.start [])
    (hkeeps : m.Keeps ok inv) : inv s log := by
  induction h with
  | start => exact hstart
  | step _ hok hstep ih => exact hkeeps _ _ _ _ ih hok hstep

/-- What a machine does whose step and output are the parts of one function. -/
theorem act_of_step {f : σ → α → Option (σ × List ω)} (hs : ∀ s a, m.step s a = (f s a).map Prod.fst)
    (he : ∀ s a, m.emits s a = ((f s a).map Prod.snd).getD []) {a : α} {s' : σ} (h : m.step s a = some s') :
    f s a = some (s', m.emits s a) := by
  rw [hs] at h
  obtain ⟨⟨next, out⟩, hf, rfl⟩ := Option.map_eq_some_iff.mp h
  rw [he, hf]
  rfl

theorem keeps_of_act {f : σ → α → Option (σ × List ω)} {inv : σ → List ω → Prop}
    (hs : ∀ s a, m.step s a = (f s a).map Prod.fst) (he : ∀ s a, m.emits s a = ((f s a).map Prod.snd).getD [])
    (h : ∀ s log a s' out, inv s log → ok s a → f s a = some (s', out) → inv s' (log ++ out)) : m.Keeps ok inv :=
  fun s log a s' hinv hok hstep => h s log a s' _ hinv hok (act_of_step hs he hstep)

/-- A list of actions, taken one after the other. -/
def exec (m : Machine σ α ω) : σ → List α → Option (σ × List ω)
  | s, [] => some (s, [])
  | s, a :: rest => (m.step s a).bind fun s' =>
      (m.exec s' rest).map fun (t, out) => (t, m.emits s a ++ out)

/-- Each action of the list meets `ok` when it is its turn. -/
def Meets (m : Machine σ α ω) (ok : σ → α → Prop) : σ → List α → Prop
  | _, [] => True
  | s, a :: rest => ok s a ∧ ∀ s', m.step s a = some s' → m.Meets ok s' rest

theorem Runs.exec {t : σ} {out : List ω} (h : m.Runs ok s log) (actions : List α)
    (he : m.exec s actions = some (t, out)) (hm : m.Meets ok s actions) : m.Runs ok t (log ++ out) := by
  induction actions generalizing s log out with
  | nil =>
    cases he
    rwa [List.append_nil]
  | cons a rest ih =>
    obtain ⟨s1, h1, he⟩ := Option.bind_eq_some_iff.mp he
    obtain ⟨⟨t1, more⟩, hmore, he⟩ := Option.map_eq_some_iff.mp he
    cases he
    rw [← List.append_assoc]
    exact ih (h.step hm.1 h1) hmore (hm.2 s1 h1)

theorem exec_append (m : Machine σ α ω) (s : σ) (first rest : List α) :
    m.exec s (first ++ rest) = (m.exec s first).bind fun (t, out) =>
      (m.exec t rest).map fun (u, more) => (u, out ++ more) := by
  induction first generalizing s with
  | nil => simp [exec]
  | cons a first ih =>
    rw [List.cons_append, exec, exec]
    cases m.step s a with
    | none => rfl
    | some s1 =>
      simp only [Option.bind_some, ih]
      cases m.exec s1 first with
      | none => rfl
      | some r => simp [Function.comp_def]

theorem exec_append_some {t : σ} {out : List ω} {first rest : List α} (he : m.exec s (first ++ rest) = some (t, out)) :
    ∃ u said more, m.exec s first = some (u, said) ∧ m.exec u rest = some (t, more) ∧ out = said ++ more := by
  rw [exec_append] at he
  obtain ⟨⟨u, said⟩, hfirst, he⟩ := Option.bind_eq_some_iff.mp he
  obtain ⟨⟨v, more⟩, hrest, he⟩ := Option.map_eq_some_iff.mp he
  cases he
  exact ⟨u, said, more, hfirst, hrest, rfl⟩

theorem exec_cons_some {t : σ} {out : List ω} {a : α} {rest : List α} (he : m.exec s (a :: rest) = some (t, out)) :
    ∃ u more, m.step s a = some u ∧ m.exec u rest = some (t, more) ∧ out = m.emits s a ++ more := by
  obtain ⟨u, hstep, he⟩ := Option.bind_eq_some_iff.mp he
  obtain ⟨⟨v, more⟩, hrest, he⟩ := Option.map_eq_some_iff.mp he
  cases he
  exact ⟨u, more, hstep, hrest, rfl⟩

/-- What every action of a list keeps holds after it. -/
theorem exec_keeps {t : σ} {out : List ω} (inv : σ → List ω → Prop) (actions : List α)
    (he : m.exec s actions = some (t, out)) (h : inv s log)
    (hkeeps : ∀ s log a s', a ∈ actions → inv s log → m.step s a = some s' →
      inv s' (log ++ m.emits s a)) : inv t (log ++ out) := by
  induction actions generalizing s log out with
  | nil =>
    cases he
    rwa [List.append_nil]
  | cons a rest ih =>
    obtain ⟨s1, h1, he⟩ := Option.bind_eq_some_iff.mp he
    obtain ⟨⟨t1, more⟩, hmore, he⟩ := Option.map_eq_some_iff.mp he
    cases he
    rw [← List.append_assoc]
    exact ih hmore (hkeeps s log a s1 (List.mem_cons_self ..) h h1)
      (fun s log b s' hb => hkeeps s log b s' (List.mem_cons_of_mem a hb))

/-- What every action that meets `ok` keeps holds after a list of them. -/
theorem Meets.keeps {t : σ} {out : List ω} (inv : σ → Prop) {actions : List α} (hm : m.Meets ok s actions)
    (he : m.exec s actions = some (t, out)) (h : inv s)
    (hkeeps : ∀ s a s', inv s → ok s a → m.step s a = some s' → inv s') : inv t := by
  induction actions generalizing s out with
  | nil =>
    cases he
    exact h
  | cons a rest ih =>
    obtain ⟨s1, h1, he⟩ := Option.bind_eq_some_iff.mp he
    obtain ⟨⟨t1, more⟩, hmore, he⟩ := Option.map_eq_some_iff.mp he
    cases he
    exact ih (hm.2 s1 h1) hmore (hkeeps s a s1 h hm.1 h1)

/-- How many actions of a list pass a test when it is their turn. -/
def times (m : Machine σ α ω) (test : σ → α → Bool) : σ → List α → Nat
  | _, [] => 0
  | s, a :: rest => (test s a).toNat + ((m.step s a).map fun s' => m.times test s' rest).getD 0

theorem times_cons {test : σ → α → Bool} {a : α} {s' : σ} (rest : List α) (h : m.step s a = some s') :
    m.times test s (a :: rest) = (test s a).toNat + m.times test s' rest := by
  rw [times, h]
  rfl

theorem meets_true (m : Machine σ α ω) (s : σ) (actions : List α) :
    m.Meets (fun _ _ => True) s actions := by
  induction actions generalizing s with
  | nil => exact trivial
  | cons a rest ih => exact ⟨trivial, fun s' _ => ih s'⟩

/-- What is asked of the actions alone is met from every state. -/
theorem meets_of_forall (m : Machine σ α ω) {good : α → Prop} (s : σ) {actions : List α} (h : ∀ a ∈ actions, good a) :
    m.Meets (fun _ a => good a) s actions := by
  induction actions generalizing s with
  | nil => exact trivial
  | cons a rest ih =>
    exact ⟨h a (List.mem_cons_self ..), fun s' _ => ih s' fun b hb => h b (List.mem_cons_of_mem a hb)⟩

end Machine

/-- Every entry of a list fits what came before it. -/
def Fitting {ω : Type*} (fits : List ω → ω → Prop) : List ω → List ω → Prop
  | _, [] => True
  | before, e :: rest => fits before e ∧ Fitting fits (before ++ [e]) rest

theorem fitting_append {ω : Type*} {fits : List ω → ω → Prop} (before first rest : List ω) :
    Fitting fits before (first ++ rest) ↔ Fitting fits before first ∧ Fitting fits (before ++ first) rest := by
  induction first generalizing before with
  | nil => simp [Fitting]
  | cons e first ih => simp [Fitting, ih, and_assoc]

theorem Fitting.entry {ω : Type*} {fits : List ω → ω → Prop} {log first rest : List ω} {e : ω}
    (h : Fitting fits [] log) (hlog : log = first ++ e :: rest) : fits first e := by
  rw [hlog, fitting_append] at h
  exact h.2.1
