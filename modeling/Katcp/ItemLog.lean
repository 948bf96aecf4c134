import Mathlib.Data.List.Basic

namespace ItemLog

/-- An entry about a numbered item: it is opened, tried, or ended in some way. -/
inductive Entry (κ ω : Type*)
  | opened (id : Nat) (item : κ)
  | tried (id : Nat) (item : κ)
  | ended (id : Nat) (how : ω)
deriving DecidableEq, Repr

variable {κ ω : Type*} {fits : κ → ω → Prop} {log more : List (Entry κ ω)} {n id other : Nat} {item other' : κ}
  {how : ω}

/-- An item that has been opened and has not ended. -/
def Open (log : List (Entry κ ω)) (id : Nat) (item : κ) : Prop :=
  .opened id item ∈ log ∧ ∀ how, .ended id how ∉ log

/-- The logs in which items are numbered as they are opened, tried and ended only while they are
open, and ended in a way that fits them. -/
inductive Orderly (fits : κ → ω → Prop) : List (Entry κ ω) → Nat → Prop
  | start : Orderly fits [] 0
  | opened {log : List (Entry κ ω)} {n : Nat} (item : κ) : Orderly fits log n →
      Orderly fits (log ++ [.opened n item]) (n + 1)
  | tried {log : List (Entry κ ω)} {n id : Nat} {item : κ} : Orderly fits log n → Open log id item →
      Orderly fits (log ++ [.tried id item]) n
  | ended {log : List (Entry κ ω)} {n id : Nat} {item : κ} {how : ω} : Orderly fits log n → Open log id item →
      fits item how → Orderly fits (log ++ [.ended id how]) n

def endsOf (id : Nat) : Entry κ ω → Bool
  | .ended other _ => other = id
  | _ => false

/-- The ways in which an item has ended. -/
def ends (log : List (Entry κ ω)) (id : Nat) : List (Entry κ ω) := log.filter (endsOf id)

theorem Open.opened (h : Open log id item) : Open (log ++ [.opened other other']) id item := by
  refine ⟨List.mem_append_left _ h.1, fun how hmem => ?_⟩
  rcases List.mem_append.mp hmem with hmem | hmem
  · exact h.2 how hmem
  · cases List.mem_singleton.mp hmem

theorem Open.tried (h : Open log id item) : Open (log ++ [.tried other other']) id item := by
  refine ⟨List.mem_append_left _ h.1, fun how hmem => ?_⟩
  rcases List.mem_append.mp hmem with hmem | hmem
  · exact h.2 how hmem
  · cases List.mem_singleton.mp hmem

theorem Open.ended (h : Open log id item) (hne : other ≠ id) : Open (log ++ [.ended other how]) id item := by
  refine ⟨List.mem_append_left _ h.1, fun how' hmem => ?_⟩
  rcases List.mem_append.mp hmem with hmem | hmem
  · exact h.2 how' hmem
  · cases List.mem_singleton.mp hmem
    exact hne rfl

/-- What is open after an entry was so before, or is what the entry opens. -/
theorem Open.before (h : Open (log ++ more) id item) (hnew : .opened id item ∉ more) : Open log id item := by
  refine ⟨?_, fun how hmem => h.2 how (List.mem_append_left _ hmem)⟩
  rcases List.mem_append.mp h.1 with hmem | hmem
  · exact hmem
  · exact absurd hmem hnew

/-- Ending an item, nothing but the other items is left open. -/
theorem Open.ne_ended (h : Open (log ++ [.ended other how]) id item) : other ≠ id := by
  rintro rfl
  exact h.2 how (by simp)

theorem ends_eq_nil : ends log id = [] ↔ ∀ how, .ended id how ∉ log := by
  unfold ends
  rw [List.filter_eq_nil_iff]
  constructor
  · intro h how hmem
    exact h _ hmem (by simp [endsOf])
  · intro h e hmem he
    cases e with
    | ended other how =>
      cases of_decide_eq_true he
      exact h how hmem
    | _ => cases he

namespace Orderly

theorem lt (h : Orderly fits log n) (hmem : .opened id item ∈ log) : id < n := by
  induction h with
  | start => cases hmem
  | opened item' _ ih =>
    rcases List.mem_append.mp hmem with hmem | hmem
    · exact Nat.lt_succ_of_lt (ih hmem)
    · cases List.mem_singleton.mp hmem
      exact Nat.lt_succ_self _
  | tried _ _ ih => exact ih (by simpa using hmem)
  | ended _ _ _ ih => exact ih (by simpa using hmem)

/-- An item is tried as it was opened. -/
theorem tried_opened (h : Orderly fits log n) (hmem : .tried id item ∈ log) : .opened id item ∈ log := by
  induction h with
  | start => cases hmem
  | opened item' _ ih => exact List.mem_append_left _ (ih (by simpa using hmem))
  | tried _ hopen ih =>
    rcases List.mem_append.mp hmem with hmem | hmem
    · exact List.mem_append_left _ (ih hmem)
    · cases List.mem_singleton.mp hmem
      exact List.mem_append_left _ hopen.1
  | ended _ _ _ ih => exact List.mem_append_left _ (ih (by simpa using hmem))

/-- An item ends in a way that fits what was opened. -/
theorem ended_fits (h : Orderly fits log n) (hmem : .ended id how ∈ log) :
    ∃ item, .opened id item ∈ log ∧ fits item how := by
  induction h with
  | start => cases hmem
  | opened item' _ ih =>
    obtain ⟨item, hitem, hfits⟩ := ih (by simpa using hmem)
    exact ⟨item, List.mem_append_left _ hitem, hfits⟩
  | tried _ _ ih =>
    obtain ⟨item, hitem, hfits⟩ := ih (by simpa using hmem)
    exact ⟨item, List.mem_append_left _ hitem, hfits⟩
  | ended _ hopen hfit ih =>
    rcases List.mem_append.mp hmem with hmem | hmem
    · obtain ⟨item, hitem, hfits⟩ := ih hmem
      exact ⟨item, List.mem_append_left _ hitem, hfits⟩
    · cases List.mem_singleton.mp hmem
      exact ⟨_, List.mem_append_left _ hopen.1, hfit⟩

theorem ended_lt (h : Orderly fits log n) (hmem : .ended id how ∈ log) : id < n := by
  obtain ⟨item, hitem, _⟩ := h.ended_fits hmem
  exact h.lt hitem

/-- No number is given twice. -/
theorem unique (h : Orderly fits log n) (h1 : .opened id item ∈ log) (h2 : .opened id other' ∈ log) :
    item = other' := by
  induction h with
  | start => cases h1
  | opened item' hlog ih =>
    rcases List.mem_append.mp h1 with hold1 | hnew1 <;> rcases List.mem_append.mp h2 with hold2 | hnew2
    · exact ih hold1 hold2
    · cases List.mem_singleton.mp hnew2
      exact absurd (lt hlog hold1) (Nat.lt_irrefl _)
    · cases List.mem_singleton.mp hnew1
      exact absurd (lt hlog hold2) (Nat.lt_irrefl _)
    · cases List.mem_singleton.mp hnew1
      cases List.mem_singleton.mp hnew2
      rfl
  | tried _ _ ih => exact ih (by simpa using h1) (by simpa using h2)
  | ended _ _ _ ih => exact ih (by simpa using h1) (by simpa using h2)

/-- An item that has just been opened is open. -/
theorem open_new (h : Orderly fits log n) (item : κ) : Open (log ++ [.opened n item]) n item := by
  refine ⟨by simp, fun how hmem => ?_⟩
  rcases List.mem_append.mp hmem with hmem | hmem
  · exact absurd (h.ended_lt hmem) (Nat.lt_irrefl _)
  · cases List.mem_singleton.mp hmem

/-- Every item ends at most once. -/
theorem once (h : Orderly fits log n) (id : Nat) : (ends log id).length ≤ 1 := by
  unfold ends
  induction h with
  | start => exact Nat.zero_le _
  | opened item _ ih => simpa [endsOf] using ih
  | tried _ _ ih => simpa [endsOf] using ih
  | @ended log n id' item how _ hopen _ ih =>
    rw [List.filter_append]
    by_cases hid : id' = id
    · subst hid
      have hnone := ends_eq_nil.mpr hopen.2
      unfold ends at hnone
      rw [hnone, List.nil_append]
      exact List.length_filter_le _ _
    · simpa [endsOf, hid] using ih

end Orderly

end ItemLog
