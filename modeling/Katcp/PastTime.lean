import Mathlib.Data.List.Induction

/-- Something happened in a history, and what has happened since is all of one kind. -/
def Since {ε : Type*} (hold : ε → Prop) (start : List ε → ε → Prop) (log : List ε) : Prop :=
  ∃ before e after, log = before ++ e :: after ∧ start before e ∧ ∀ x ∈ after, hold x

namespace Since

variable {ε : Type*} {hold : ε → Prop} {start : List ε → ε → Prop} {log out : List ε} {e : ε}

theorem not_nil : ¬Since hold start [] := by
  rintro ⟨before, e, after, hlog, -⟩
  simp at hlog

theorem snoc : Since hold start (log ++ [e]) ↔ start log e ∨ (hold e ∧ Since hold start log) := by
  constructor
  · rintro ⟨before, x, after, hlog, hstart, hhold⟩
    rcases List.eq_nil_or_concat after with rfl | ⟨rest, y, rfl⟩
    · obtain ⟨rfl, hx⟩ := List.append_inj' hlog rfl
      cases hx
      exact .inl hstart
    · have hsplit : log ++ [e] = (before ++ x :: rest) ++ [y] := by simpa using hlog
      obtain ⟨rfl, hy⟩ := List.append_inj' hsplit rfl
      cases hy
      exact .inr ⟨hhold e (by simp), before, x, rest, rfl, hstart, fun z hz => hhold z (by simp [hz])⟩
  · rintro (hstart | ⟨he, before, x, after, rfl, hstart, hhold⟩)
    · exact ⟨log, e, [], rfl, hstart, fun x hx => (nomatch hx)⟩
    · refine ⟨before, x, after ++ [e], by simp, hstart, fun y hy => ?_⟩
      rcases List.mem_append.mp hy with hy | hy
      · exact hhold y hy
      · rw [List.mem_singleton.mp hy]
        exact he

/-- Where no later event starts it, it held before. -/
theorem of_append (h : Since hold start (log ++ out))
    (hnone : ∀ before x after, out = before ++ x :: after → ¬start (log ++ before) x) : Since hold start log := by
  induction out using List.reverseRecOn with
  | nil => rwa [List.append_nil] at h
  | append_singleton rest x ih =>
    rw [← List.append_assoc, snoc] at h
    rcases h with hstart | ⟨_, h⟩
    · exact absurd hstart (hnone rest x [] rfl)
    · exact ih h fun before y after he => hnone before y (after ++ [x]) (by simp [he])

end Since

/-- Every event of a history is as it should be after those before it. -/
def Always {ε : Type*} (good : List ε → ε → Prop) (log : List ε) : Prop :=
  ∀ before e after, log = before ++ e :: after → good before e

namespace Always

variable {ε : Type*} {good : List ε → ε → Prop} {log out : List ε} {e : ε}

theorem nil : Always good [] := by
  intro before e after hlog
  simp at hlog

theorem append (h : Always good log)
    (hout : ∀ before e after, out = before ++ e :: after → good (log ++ before) e) : Always good (log ++ out) := by
  intro before e after hlog
  rcases List.append_eq_append_iff.mp hlog with ⟨mid, rfl, hmid⟩ | ⟨mid, rfl, hmid⟩
  · exact hout mid e after hmid
  · cases mid with
    | nil =>
      simpa using hout [] e after hmid.symm
    | cons x mid =>
      cases (List.cons.inj hmid).1
      exact h before e mid rfl

theorem snoc (h : Always good log) (he : good log e) : Always good (log ++ [e]) := by
  apply h.append
  intro before x after hsplit
  obtain ⟨rfl, hcons⟩ | ⟨rest, rfl, hrest⟩ := List.cons_eq_append_iff.mp hsplit
  · cases (List.cons.inj hcons).1
    rwa [List.append_nil]
  · simp at hrest

end Always
