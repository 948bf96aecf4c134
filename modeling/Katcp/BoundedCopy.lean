import Katcp.Memory
import Mathlib.Data.Int.Init
import Mathlib.Algebra.Group.Int.Defs
import Mathlib.Algebra.Group.Nat.Defs

namespace Memory

section

variable {α : Type*} {xs ys done : List α} {x : α}

/-- Copy `ys` over the cells of a block that start at `off`, where it has that many. -/
def put (xs : List α) (off : Int) (ys : List α) : Option (List α) :=
  if 0 ≤ off ∧ off.toNat + ys.length ≤ xs.length then some (copyInto xs off.toNat ys) else none

/-- `memcpy` from a pointer into a block of which `src` is the rest. A negative count is larger
than any block once it is taken as a size. -/
def memcpy (xs : List α) (off : Int) (src : List α) (count : Int) : Option (List α) :=
  if 0 ≤ count ∧ count.toNat ≤ src.length then put xs off (src.take count.toNat) else none

/-- An element is stored through an index. -/
def assign (xs : List α) (off : Int) (x : α) : Option (List α) := put xs off [x]

/-- An unsigned number that is taken as an `int`. -/
def asInt (n : Nat) : Int := (n : Int).bmod (2 ^ 32)

theorem asInt_small {n : Nat} (h : n < 2 ^ 31) : asInt n = n := Int.bmod_eq_of_le (by omega) (by omega)

theorem asInt_lt (n : Nat) : asInt n < 2 ^ 31 := Int.bmod_lt (by decide)

theorem asInt_ge (n : Nat) : -2 ^ 31 ≤ asInt n := Int.le_bmod (by decide)

theorem asInt_large {n : Nat} (h : 2 ^ 31 ≤ n) : asInt n + 2 ^ 32 ≤ n := by
  obtain ⟨k, hk⟩ : ((2 ^ 32 : Nat) : Int) ∣ n - asInt n := Int.dvd_self_sub_bmod
  have hlt := asInt_lt n
  have hpos : 0 < k := by
    by_contra hle
    omega
  omega

theorem asInt_cases (n : Nat) : asInt n = n ∨ asInt n + 2 ^ 32 ≤ n := by
  by_cases hs : n < 2 ^ 31
  · exact Or.inl (asInt_small hs)
  · exact Or.inr (asInt_large (Nat.le_of_not_lt hs))

theorem asInt_negative {n : Nat} (h : 2 ^ 31 ≤ n) (h' : n < 2 ^ 32) : asInt n < 0 := by
  have := asInt_large h
  omega

theorem put_of_fits {off : Nat} (h : off + ys.length ≤ xs.length) : put xs off ys = some (copyInto xs off ys) := by
  rw [put, if_pos ⟨Int.natCast_nonneg off, h⟩, Int.toNat_natCast]

theorem put_length {off : Int} {zs : List α} (h : put xs off ys = some zs) : zs.length = xs.length := by
  unfold put at h
  split at h
  next hfits =>
    cases Option.some.inj h
    exact copyInto_length hfits.2
  next => cases h

theorem put_short {off : Int} (h : xs.length < off + ys.length) : put xs off ys = none := by
  rw [put, if_neg]
  rintro ⟨hoff, hfits⟩
  omega

theorem memcpy_length {off count : Int} {src zs : List α} (h : memcpy xs off src count = some zs) :
    zs.length = xs.length := by
  unfold memcpy at h
  split at h
  next => exact put_length h
  next => cases h

theorem memcpy_neg {off count : Int} {src : List α} (h : count < 0) : memcpy xs off src count = none := by
  rw [memcpy, if_neg]
  omega

theorem memcpy_of_fits {off n : Nat} {src : List α} (hsrc : n ≤ src.length) (hfits : off + n ≤ xs.length) :
    memcpy xs off src n = some (copyInto xs off (src.take n)) := by
  rw [memcpy, if_pos (by omega), Int.toNat_natCast, put_of_fits]
  rw [List.length_take]
  omega

theorem memcpy_short {off count : Int} {src : List α} (h : xs.length < off + count) :
    memcpy xs off src count = none := by
  unfold memcpy
  split
  next hsrc =>
    refine put_short ?_
    rw [List.length_take]
    omega
  next => rfl

/-- What begins a block stays when the copy goes behind it. -/
theorem copyInto_behind (h : done <+: xs) (hfits : done.length + ys.length ≤ xs.length) :
    done ++ ys <+: copyInto xs done.length ys := by
  obtain ⟨rest, rfl⟩ := h
  rw [copyInto, List.take_left]
  exact List.prefix_append _ _

theorem copyInto_end {n : Nat} (h : n + ys.length = xs.length) : copyInto xs n ys = xs.take n ++ ys := by
  rw [copyInto, h, List.drop_length, List.append_nil]

theorem put_behind (h : done <+: xs) (hfits : done.length + ys.length ≤ xs.length) :
    ∃ zs, put xs done.length ys = some zs ∧ zs.length = xs.length ∧ done ++ ys <+: zs :=
  ⟨_, put_of_fits hfits, copyInto_length hfits, copyInto_behind h hfits⟩

theorem memcpy_behind {n : Nat} {src : List α} (h : done <+: xs) (hsrc : n ≤ src.length)
    (hfits : done.length + n ≤ xs.length) :
    ∃ zs, memcpy xs done.length src n = some zs ∧ zs.length = xs.length ∧ done ++ src.take n <+: zs := by
  have hlen : done.length + (src.take n).length ≤ xs.length := by
    rw [List.length_take]
    omega
  exact ⟨_, memcpy_of_fits hsrc hfits, copyInto_length hlen, copyInto_behind h hlen⟩

theorem memcpy_front {n : Nat} {src : List α} (hsrc : n ≤ src.length) (hfits : n ≤ xs.length) :
    ∃ zs, memcpy xs 0 src n = some zs ∧ zs.length = xs.length ∧ src.take n <+: zs := by
  have h := memcpy_behind (List.nil_prefix (l := xs)) hsrc (by simpa using hfits)
  simpa using h

/-- What a copy leaves is from one of the two blocks. -/
theorem memcpy_mem {off count : Int} {src zs : List α} (h : memcpy xs off src count = some zs) (hx : x ∈ zs) :
    x ∈ xs ∨ x ∈ src.take count.toNat := by
  unfold memcpy put at h
  split at h
  next =>
    split at h
    next =>
      cases Option.some.inj h
      rcases List.mem_append.mp hx with hx | hx
      · rcases List.mem_append.mp hx with hx | hx
        · exact .inl (List.mem_of_mem_take hx)
        · exact .inr hx
      · exact .inl (List.mem_of_mem_drop hx)
    next => cases h
  next => cases h

theorem assign_mem {off : Int} {y : α} {zs : List α} (h : assign xs off y = some zs) (hx : x ∈ zs) :
    x ∈ xs ∨ x = y := by
  unfold assign put at h
  split at h
  next =>
    cases Option.some.inj h
    rcases List.mem_append.mp hx with hx | hx
    · rcases List.mem_append.mp hx with hx | hx
      · exact .inl (List.mem_of_mem_take hx)
      · exact .inr (List.mem_singleton.mp hx)
    · exact .inl (List.mem_of_mem_drop hx)
  next => cases h

theorem assign_behind (h : done <+: xs) (hfits : done.length < xs.length) :
    ∃ zs, assign xs done.length x = some zs ∧ zs.length = xs.length ∧ done ++ [x] <+: zs :=
  put_behind h hfits

end

end Memory
