import Mathlib.Data.List.Basic

/-- A machine that reads one item at a time and may say something after each. -/
structure Transducer (σ ι ω : Type*) where
  step : σ → ι → σ × List ω

namespace Transducer

variable {σ τ ι ω κ : Type*}

def run (m : Transducer σ ι ω) : σ → List ι → σ × List ω
  | s, [] => (s, [])
  | s, x :: xs =>
    let first := m.step s x
    let rest := m.run first.1 xs
    (rest.1, first.2 ++ rest.2)

@[simp] theorem run_nil (m : Transducer σ ι ω) (s : σ) : m.run s [] = (s, []) := rfl

theorem run_cons (m : Transducer σ ι ω) (s : σ) (x : ι) (xs : List ι) :
    m.run s (x :: xs) =
      ((m.run (m.step s x).1 xs).1, (m.step s x).2 ++ (m.run (m.step s x).1 xs).2) := rfl

theorem run_append (m : Transducer σ ι ω) (s : σ) (xs ys : List ι) :
    m.run s (xs ++ ys) =
      ((m.run (m.run s xs).1 ys).1, (m.run s xs).2 ++ (m.run (m.run s xs).1 ys).2) := by
  induction xs generalizing s with
  | nil => simp
  | cons x xs ih =>
    rw [List.cons_append, run_cons, ih, run_cons]
    simp

/-- A state that swallows every item in silence. -/
def Dead (m : Transducer σ ι ω) (s : σ) : Prop := ∀ x, m.step s x = (s, [])

theorem run_dead {m : Transducer σ ι ω} {s : σ} (h : m.Dead s) (xs : List ι) :
    m.run s xs = (s, []) := by
  induction xs with
  | nil => rfl
  | cons x xs ih => rw [run_cons, h x]; simp [ih]

/-- A consumer of whole chunks: it may refuse one. -/
def feed (f : τ → κ → Option (τ × List ω)) : τ → List κ → Option (τ × List ω)
  | t, [] => some (t, [])
  | t, c :: cs => do
    let (t', out) ← f t c
    let (t'', more) ← feed f t' cs
    some (t'', out ++ more)

/-- The consumer of chunks handles each chunk as the machine handles its items. -/
def Follows (m : Transducer σ ι ω) (items : κ → List ι) (f : τ → κ → Option (τ × List ω))
    (R : τ → σ → Prop) : Prop :=
  ∀ t s c t' out, R t s → f t c = some (t', out) →
    out = (m.run s (items c)).2 ∧ R t' (m.run s (items c)).1

/-- What a consumer says depends on the items alone, not on how they were cut. -/
theorem feed_of_follows {m : Transducer σ ι ω} {items : κ → List ι}
    {f : τ → κ → Option (τ × List ω)} {R : τ → σ → Prop} (follows : m.Follows items f R)
    {cs : List κ} {t t' : τ} {s : σ} {out : List ω} (hr : R t s)
    (h : feed f t cs = some (t', out)) :
    out = (m.run s (cs.flatMap items)).2 ∧ R t' (m.run s (cs.flatMap items)).1 := by
  induction cs generalizing t s out with
  | nil =>
    cases Option.some.inj h
    exact ⟨rfl, hr⟩
  | cons c cs ih =>
    obtain ⟨⟨t1, first⟩, h1, h⟩ := Option.bind_eq_some_iff.mp h
    obtain ⟨⟨t2, rest⟩, h2, h⟩ := Option.bind_eq_some_iff.mp h
    cases Option.some.inj h
    obtain ⟨hf, hr1⟩ := follows t s c t1 first hr h1
    obtain ⟨hs, hr2⟩ := ih hr1 h2
    rw [List.flatMap_cons, run_append]
    exact ⟨by rw [hf, hs], hr2⟩

end Transducer
