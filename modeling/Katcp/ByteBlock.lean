import Katcp.BitMemory

namespace ByteBlock

open BitMemory

/-- The bytes of a memory from a place on. -/
def load (m : Bytes) (off n : Nat) : List (BitVec 8) := (List.range n).map fun i => m (off + i)

/-- A memory with a list of bytes copied to a place. -/
def put (m : Bytes) (off : Nat) (bytes : List (BitVec 8)) : Bytes := fun k =>
  if off ≤ k then bytes.getD (k - off) (m k) else m k

variable {m : Bytes} {off start n k : Nat} {bytes : List (BitVec 8)}

@[simp] theorem length_load : (load m off n).length = n := by simp [load]

theorem getElem?_load : (load m off n)[k]? = if k < n then some (m (off + k)) else none := by
  unfold load
  split
  next h => simp [h]
  next h => simp [Nat.le_of_not_lt h]

theorem put_below (h : k < off) : put m off bytes k = m k := if_neg (Nat.not_le_of_lt h)

theorem put_above (h : off + bytes.length ≤ k) : put m off bytes k = m k := by
  have hk : bytes.length ≤ k - off := by omega
  rw [put, if_pos (by omega), List.getD_eq_default _ _ hk]

/-- What lies before the place of a copy is not changed by it. -/
theorem load_put_below (h : start + n ≤ off) : load (put m off bytes) start n = load m start n := by
  apply List.ext_getElem?
  intro i
  rw [getElem?_load, getElem?_load]
  split
  next hi => rw [put_below (by omega)]
  next => rfl

/-- Copying bytes and reading them back. -/
theorem load_put_self : load (put m off bytes) off bytes.length = bytes := by
  apply List.ext_getElem?
  intro i
  rw [getElem?_load]
  split
  next hi => rw [put, if_pos (by omega), Nat.add_sub_cancel_left, List.getD_eq_getElem?_getD,
      List.getElem?_eq_getElem hi, Option.getD_some]
  next hi => rw [List.getElem?_eq_none (Nat.le_of_not_lt hi)]

theorem load_append (m : Bytes) (off a b : Nat) : load m off (a + b) = load m off a ++ load m (off + a) b := by
  simp [load, List.range_add, Nat.add_assoc]

end ByteBlock
