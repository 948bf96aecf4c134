import Mathlib.Data.List.Nodup
import Mathlib.Data.Tree.Basic

namespace TreeZipper

/-- The two hands of a binary tree. -/
inductive Hand where
  | left | right
  deriving DecidableEq, Repr

namespace Hand

def other : Hand → Hand
  | left => right
  | right => left

/-- A tree leans by this much when the given side is one higher. -/
def sign : Hand → Int
  | left => -1
  | right => 1

end Hand

variable {α : Type*}

open BinaryTree

/-- A node with `near` on the given side and `far` on the other. -/
def join (s : Hand) (x : α) (near far : BinaryTree α) : BinaryTree α :=
  match s with
  | .left => node x near far
  | .right => node x far near

def inorder : BinaryTree α → List α
  | nil => []
  | node x l r => inorder l ++ x :: inorder r

/-- A node on the way down to a subtree, which hangs on the given side of it. -/
structure Frame (α : Type*) where
  side : Hand
  entry : α
  sibling : BinaryTree α

def Frame.fill (f : Frame α) (t : BinaryTree α) : BinaryTree α := join f.side f.entry t f.sibling

/-- The whole tree around a subtree, from the nodes above it, the lowest first. -/
def plug : List (Frame α) → BinaryTree α → BinaryTree α
  | [], t => t
  | f :: above, t => plug above (f.fill t)

def before : List (Frame α) → List α
  | [] => []
  | f :: above => before above ++ match f.side with
    | .left => []
    | .right => inorder f.sibling ++ [f.entry]

def after : List (Frame α) → List α
  | [] => []
  | f :: above => (match f.side with
    | .left => f.entry :: inorder f.sibling
    | .right => []) ++ after above

theorem plug_append (p q : List (Frame α)) (t : BinaryTree α) :
    plug (p ++ q) t = plug q (plug p t) := by
  induction p generalizing t with
  | nil => rfl
  | cons f p ih => exact ih (f.fill t)

theorem before_append (p q : List (Frame α)) : before (p ++ q) = before q ++ before p := by
  induction p with
  | nil => simp [before]
  | cons f p ih => simp [before, ih]

theorem inorder_plug (p : List (Frame α)) (t : BinaryTree α) :
    inorder (plug p t) = before p ++ inorder t ++ after p := by
  induction p generalizing t with
  | nil => simp [plug, before, after]
  | cons f p ih =>
    obtain ⟨s, x, u⟩ := f
    cases s <;> simp [plug, before, after, ih, Frame.fill, join, inorder]

theorem height_join (s : Hand) (x : α) (near far : BinaryTree α) :
    (join s x near far).height = max near.height far.height + 1 := by
  cases s
  · rfl
  · exact congrArg (· + 1) (Nat.max_comm _ _)

theorem height_le_length (t : BinaryTree α) : t.height ≤ (inorder t).length := by
  induction t with
  | nil => exact Nat.le_refl 0
  | node x l r ihl ihr =>
    simp only [height, inorder, List.length_append, List.length_cons]
    omega

theorem height_le_plug (p : List (Frame α)) (t : BinaryTree α) :
    p.length + t.height ≤ (plug p t).height := by
  induction p generalizing t with
  | nil => simp [plug]
  | cons f p ih =>
    have hf := ih (f.fill t)
    rw [Frame.fill, height_join] at hf
    rw [List.length_cons, plug, Frame.fill]
    omega

/-- Neither the path to a subtree nor the subtree is longer than the tree is large. -/
theorem length_le_length (p : List (Frame α)) (t : BinaryTree α) :
    p.length + t.height ≤ (inorder (plug p t)).length :=
  Nat.le_trans (height_le_plug p t) (height_le_length _)

section Balance

variable {x : α} {b : Int} {s : Hand} {near far t : BinaryTree (α × Int)} {n : Nat}

/-- Each node carries how much higher its right subtree is than its left one, and neither is
higher by more than one. -/
def Balanced : BinaryTree (α × Int) → Prop
  | nil => True
  | node x l r => x.2 = (r.height : Int) - l.height ∧ x.2.natAbs ≤ 1 ∧ Balanced l ∧ Balanced r

/-- The nodes above a subtree are balanced if that subtree has height `n`. -/
def BalancedPath : Nat → List (Frame (α × Int)) → Prop
  | _, [] => True
  | n, f :: above => f.entry.2 = f.side.sign * ((n : Int) - f.sibling.height) ∧ f.entry.2.natAbs ≤ 1 ∧
      Balanced f.sibling ∧ BalancedPath (max n f.sibling.height + 1) above

theorem balanced_join : Balanced (join s (x, b) near far) ↔
    b = s.sign * ((near.height : Int) - far.height) ∧ b.natAbs ≤ 1 ∧ Balanced near ∧ Balanced far := by
  cases s
  · have h : (far.height : Int) - near.height = -1 * ((near.height : Int) - far.height) := by omega
    simp only [join, Balanced, Hand.sign, h]
  · simp only [join, Balanced, Hand.sign, Int.one_mul]
    tauto

theorem balanced_plug (p : List (Frame (α × Int))) (t : BinaryTree (α × Int)) :
    Balanced (plug p t) ↔ Balanced t ∧ BalancedPath t.height p := by
  induction p generalizing t with
  | nil => simp [plug, BalancedPath]
  | cons f p ih =>
    obtain ⟨s, ⟨x, b⟩, u⟩ := f
    rw [plug, ih, Frame.fill, balanced_join, BalancedPath, height_join]
    tauto

variable {a c q r : α} {d : Int} {t1 t2 t3 t4 : BinaryTree (α × Int)} {f : Frame (α × Int)}
  {above : List (Frame (α × Int))}

/-- A single rotation where the heavy child does not lean the other way. -/
theorem balanced_rotate (hb : Balanced (join s (x, b) t1 t2)) (ht : Balanced t3)
    (hh : (join s (x, b) t1 t2).height = t3.height + 2) (hs : b ≠ -s.sign) :
    Balanced (join s (x, if b = 0 then -s.sign else 0) t1
        (join s (a, if b = 0 then s.sign else 0) t2 t3)) ∧
      (join s (x, if b = 0 then -s.sign else 0) t1
        (join s (a, if b = 0 then s.sign else 0) t2 t3)).height = t3.height + if b = 0 then 3 else 2 := by
  obtain ⟨hd, hle, h1, h2⟩ := balanced_join.mp hb
  rw [height_join] at hh
  simp only [balanced_join, height_join]
  by_cases hz : b = 0
  · subst hz
    cases s <;> simp only [Hand.sign, if_true] at hd ⊢ <;>
      exact ⟨⟨by omega, by omega, h1, by omega, by omega, h2, ht⟩, by omega⟩
  · simp only [if_neg hz]
    cases s <;> simp only [Hand.sign] at hd hs ⊢ <;>
      exact ⟨⟨by omega, by omega, h1, by omega, by omega, h2, ht⟩, by omega⟩

/-- A double rotation: `c` comes up between `q` and `r`. -/
theorem balanced_rotateTwice (h1 : Balanced t1) (hc : Balanced (join .left (c, d) t2 t3)) (h4 : Balanced t4)
    (hh : t1.height = max t2.height t3.height) (hh' : t4.height = t1.height) :
    Balanced (join .left (c, 0) (join .left (q, if d = 1 then -1 else 0) t1 t2)
        (join .left (r, if d = -1 then 1 else 0) t3 t4)) ∧
      (join .left (c, 0) (join .left (q, if d = 1 then -1 else 0) t1 t2)
        (join .left (r, if d = -1 then 1 else 0) t3 t4)).height = t1.height + 2 := by
  obtain ⟨hd, hle, h2, h3⟩ := balanced_join.mp hc
  simp only [balanced_join, height_join, Hand.sign] at hd ⊢
  have hcases : d = 0 ∨ d = 1 ∨ d = -1 := by omega
  rcases hcases with rfl | rfl | rfl <;> simp only [reduceIte, Int.reduceEq, Int.reduceNeg] <;>
    exact ⟨⟨by omega, by omega, ⟨by omega, by omega, h1, h2⟩, by omega, by omega, h3, h4⟩, by omega⟩

/-- The subtree in the hole has grown by one, and its parent leans accordingly. -/
theorem balanced_raise (hp : BalancedPath n (f :: above)) (ht : Balanced t) (hh : t.height = n + 1)
    (hd : f.entry.2 + f.side.sign = d) :
    (d.natAbs ≤ 1 → Balanced (join f.side (f.entry.1, d) t f.sibling) ∧
      (join f.side (f.entry.1, d) t f.sibling).height =
        max n f.sibling.height + if d = 0 then 1 else 2) ∧
    (1 < d.natAbs → d = 2 * f.side.sign ∧ n = f.sibling.height + 1) := by
  obtain ⟨hb, hle, hs, -⟩ := hp
  simp only [balanced_join, height_join]
  cases hside : f.side <;> rw [hside] at hb hd <;> simp only [Hand.sign] at hb hd ⊢ <;>
    refine ⟨fun hd1 => ⟨⟨by omega, hd1, ht, hs⟩, by split <;> omega⟩, fun _ => by omega⟩

/-- The subtree in the hole has shrunk by one, and its parent leans accordingly. -/
theorem balanced_lower (hp : BalancedPath n (f :: above)) (ht : Balanced t) (hh : t.height + 1 = n)
    (hd : f.entry.2 - f.side.sign = d) :
    (d.natAbs ≤ 1 → Balanced (join f.side (f.entry.1, d) t f.sibling) ∧
      (join f.side (f.entry.1, d) t f.sibling).height =
        max n f.sibling.height + if d = 0 then 0 else 1) ∧
    (1 < d.natAbs → d = -2 * f.side.sign ∧ f.sibling.height = t.height + 2) := by
  obtain ⟨hb, hle, hs, -⟩ := hp
  simp only [balanced_join, height_join]
  cases hside : f.side <;> rw [hside] at hb hd <;> simp only [Hand.sign] at hb hd ⊢ <;>
    refine ⟨fun hd1 => ⟨⟨by omega, hd1, ht, hs⟩, by split <;> omega⟩, fun _ => by omega⟩

end Balance

end TreeZipper
