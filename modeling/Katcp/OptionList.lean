import Mathlib.Data.List.Basic

namespace OptionList

abbrev Octet := BitVec 8

/-- A length, so many octets, and what is behind them. -/
def field : List Octet → Option (List Octet × List Octet)
  | [] => none
  | n :: rest => if rest.length < n.toNat then none else some (rest.take n.toNat, rest.drop n.toNat)

/-- The options at the start of some octets: a code, a length and so many octets of a value each, between
pads of one octet, up to a stop. None where there is none, or an option is cut short. -/
def walk (pad stop : Octet) : Nat → List Octet → Option (List (Octet × List Octet))
  | 0, _ => none
  | _ + 1, [] => none
  | fuel + 1, c :: rest =>
    if c = stop then some []
    else if c = pad then walk pad stop fuel rest
    else (field rest).bind fun f => (walk pad stop fuel f.2).map ((c, f.1) :: ·)

/-- The options that some octets start with. -/
def read (pad stop : Octet) (octets : List Octet) : Option (List (Octet × List Octet)) :=
  walk pad stop octets.length octets

def write (options : List (Octet × List Octet)) : List Octet :=
  options.flatMap fun o => o.1 :: BitVec.ofNat 8 o.2.length :: o.2

/-- An option that can be told from a pad and the stop, with a value whose length can be told. -/
def Plain (pad stop : Octet) (o : Octet × List Octet) : Prop :=
  o.1 ≠ pad ∧ o.1 ≠ stop ∧ o.2.length < 256

variable {pad stop c n : Octet} {fuel : Nat} {rest value octets : List Octet} {options : List (Octet × List Octet)}
  {o : Octet × List Octet}

instance : Decidable (Plain pad stop o) := inferInstanceAs (Decidable (_ ∧ _))

@[simp] theorem write_cons : write (o :: options) = o.1 :: BitVec.ofNat 8 o.2.length :: (o.2 ++ write options) := rfl

theorem write_append {more : List (Octet × List Octet)} : write (options ++ more) = write options ++ write more :=
  List.flatMap_append

theorem length_le_write : options.length ≤ (write options).length := by
  induction options with
  | nil => exact Nat.le_refl 0
  | cons o options ih =>
    rw [write_cons]
    simp only [List.length_cons, List.length_append]
    omega

theorem walk_stop : walk pad stop (fuel + 1) (stop :: rest) = some [] := by
  rw [walk, if_pos rfl]

theorem walk_pad (hne : pad ≠ stop) : walk pad stop (fuel + 1) (pad :: rest) = walk pad stop fuel rest := by
  rw [walk, if_neg hne, if_pos rfl]

theorem field_append (hlen : value.length = n.toNat) : field (n :: (value ++ rest)) = some (value, rest) := by
  rw [field, if_neg (by rw [List.length_append]; omega), List.take_left' hlen, List.drop_left' hlen]

theorem walk_option (hpad : c ≠ pad) (hstop : c ≠ stop) (hlen : value.length = n.toNat) :
    walk pad stop (fuel + 1) (c :: n :: (value ++ rest)) = (walk pad stop fuel rest).map ((c, value) :: ·) := by
  rw [walk, if_neg hstop, if_neg hpad, field_append hlen, Option.bind_some]

/-- More fuel does not matter. -/
theorem walk_mono (h : walk pad stop fuel octets = some options) : walk pad stop (fuel + 1) octets = some options := by
  induction fuel generalizing octets options with
  | zero => simp [walk] at h
  | succ fuel ih =>
    cases octets with
    | nil => simp [walk] at h
    | cons c rest =>
      rw [walk] at h ⊢
      by_cases hstop : c = stop
      · rwa [if_pos hstop] at h ⊢
      · rw [if_neg hstop] at h ⊢
        by_cases hpad : c = pad
        · rw [if_pos hpad] at h ⊢
          exact ih h
        · rw [if_neg hpad] at h ⊢
          obtain ⟨f, hf, hmap⟩ := Option.bind_eq_some_iff.mp h
          obtain ⟨more, hmore, rfl⟩ := Option.map_eq_some_iff.mp hmap
          rw [hf, Option.bind_some, ih hmore]
          rfl

theorem walk_le {more : Nat} (h : walk pad stop fuel octets = some options) (hle : fuel ≤ more) :
    walk pad stop more octets = some options := by
  induction hle with
  | refl => exact h
  | step _ ih => exact walk_mono ih

/-- Options that are written are read back, whatever is behind the stop. -/
theorem read_write (h : ∀ o ∈ options, Plain pad stop o) : read pad stop (write options ++ stop :: rest) = some options := by
  have hwalk : walk pad stop (options.length + 1) (write options ++ stop :: rest) = some options := by
    induction options with
    | nil => exact walk_stop
    | cons o options ih =>
      rw [List.forall_mem_cons] at h
      obtain ⟨⟨hpad, hstop, hlen⟩, hrest⟩ := h
      have hnat : o.2.length = (BitVec.ofNat 8 o.2.length).toNat := by
        rw [BitVec.toNat_ofNat]
        exact (Nat.mod_eq_of_lt hlen).symm
      rw [write_cons, List.cons_append, List.cons_append, List.append_assoc, List.length_cons,
        walk_option hpad hstop hnat, ih hrest]
      rfl
  refine walk_le hwalk ?_
  have hle := @length_le_write options
  rw [List.length_append, List.length_cons]
  omega

end OptionList
