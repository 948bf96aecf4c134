import Katcp.DuplexData
import Katcp.Machine
import Katcp.TreeZipper
import Mathlib.Logic.Function.Basic

namespace Katcp

section

open TreeZipper

variable {δ : Type}

abbrev NodeId := Nat

def strcmp : Text → Text → Ordering
  | [], [] => .eq
  | [], _ :: _ => .lt
  | _ :: _, [] => .gt
  | a :: s, b :: t => if a < b then .lt else if b < a then .gt else strcmp s t

structure AvlNode (δ : Type) where
  nParent : Option NodeId := none
  nLeft : Option NodeId := none
  nRight : Option NodeId := none
  nBalance : Int := 0
  nKey : Text
  nData : Option δ
  deriving Repr

namespace AvlNode

def child (n : AvlNode δ) : Hand → Option NodeId
  | .left => n.nLeft
  | .right => n.nRight

def setChild (s : Hand) (c : Option NodeId) (n : AvlNode δ) : AvlNode δ :=
  match s with
  | .left => { n with nLeft := c }
  | .right => { n with nRight := c }

def setParent (p : Option NodeId) (n : AvlNode δ) : AvlNode δ := { n with nParent := p }

def setBalance (b : Int) (n : AvlNode δ) : AvlNode δ := { n with nBalance := b }

def tilt (b : Int) (n : AvlNode δ) : AvlNode δ := { n with nBalance := n.nBalance + b }

end AvlNode

open AvlNode

/-- The nodes in memory, where a node that was freed is no longer. -/
abbrev AvlHeap (δ : Type) := NodeId → Option (AvlNode δ)

structure AvlTree (δ : Type) where
  tRoot : Option NodeId := none
  nodes : AvlHeap δ := fun _ => none
  made : Nat := 0

/-- Write to a node; where there is none, the program stops. -/
def AvlHeap.edit (h : AvlHeap δ) (i : NodeId) (f : AvlNode δ → AvlNode δ) : Option (AvlHeap δ) :=
  (h i).map fun n => Function.update h i (some (f n))

def AvlHeap.editSome (h : AvlHeap δ) (c : Option NodeId) (f : AvlNode δ → AvlNode δ) :
    Option (AvlHeap δ) :=
  match c with
  | none => some h
  | some i => h.edit i f

/-- Where the parent `f` has `a`, it gets `b`: what all four rotations do. -/
def relink (h : AvlHeap δ) (f : Option NodeId) (a b : NodeId) : Option (AvlHeap δ) :=
  match f with
  | none => some h
  | some f => do
    let fn ← h f
    if fn.nRight = some a then h.edit f (setChild .right (some b))
    else h.edit f (setChild .left (some b))

/-- `rotate_leftleft_avltree` and `rotate_rightright_avltree`: the child of `a` on the given side
comes up. -/
def rotateSame (s : Hand) (h : AvlHeap δ) (a : NodeId) : Option (AvlHeap δ × NodeId) := do
  let an ← h a
  let b ← an.child s
  let bn ← h b
  let h ← h.edit a (setChild s (bn.child s.other))
  let h ← h.editSome (bn.child s.other) (setParent (some a))
  let h ← h.edit b (setChild s.other (some a))
  let h ← h.edit a (setParent (some b))
  let h ← h.edit b (setParent an.nParent)
  let h ← relink h an.nParent a b
  if bn.nBalance = 0 then
    let h ← h.edit a (setBalance s.sign)
    let h ← h.edit b (setBalance (-s.sign))
    return (h, b)
  else
    let h ← h.edit a (setBalance 0)
    let h ← h.edit b (setBalance 0)
    return (h, b)

def rotateLeftLeft (h : AvlHeap δ) (a : NodeId) : Option (AvlHeap δ × NodeId) := rotateSame .left h a

def rotateRightRight (h : AvlHeap δ) (a : NodeId) : Option (AvlHeap δ × NodeId) := rotateSame .right h a

/-- What the two double rotations of `a` and its child `b` share: `c` comes up between `q`, which
takes its left child, and `p`, which takes its right one. -/
def rotateBetween (h : AvlHeap δ) (a b c q p : NodeId) : Option (AvlHeap δ × NodeId) := do
  let an ← h a
  let cn ← h c
  let h ← h.edit p (setChild .left cn.nRight)
  let h ← h.editSome cn.nRight (setParent (some p))
  let h ← h.edit q (setChild .right cn.nLeft)
  let h ← h.editSome cn.nLeft (setParent (some q))
  let h ← h.edit c (setChild .right (some p))
  let h ← h.edit c (setChild .left (some q))
  let h ← h.edit b (setParent (some c))
  let h ← h.edit a (setParent (some c))
  let h ← h.edit c (setParent an.nParent)
  let h ← relink h an.nParent a c
  let h ← if cn.nBalance = 0 then do
      let h ← h.edit p (setBalance 0)
      h.edit q (setBalance 0)
    else if cn.nBalance = -1 then do
      let h ← h.edit p (setBalance 1)
      h.edit q (setBalance 0)
    else if cn.nBalance = 1 then do
      let h ← h.edit p (setBalance 0)
      h.edit q (setBalance (-1))
    else some h
  let h ← h.edit c (setBalance 0)
  return (h, c)

def rotateLeftRight (h : AvlHeap δ) (a : NodeId) : Option (AvlHeap δ × NodeId) := do
  let an ← h a
  let b ← an.nLeft
  let bn ← h b
  let c ← bn.nRight
  rotateBetween h a b c b a

def rotateRightLeft (h : AvlHeap δ) (a : NodeId) : Option (AvlHeap δ × NodeId) := do
  let an ← h a
  let b ← an.nRight
  let bn ← h b
  let c ← bn.nLeft
  rotateBetween h a b c a b

/-- The switch on the kind of rotation. -/
def rotateBy (first second : Hand) (h : AvlHeap δ) (n : NodeId) : Option (AvlHeap δ × NodeId) :=
  match first, second with
  | .left, .right => rotateLeftRight h n
  | .right, .left => rotateRightLeft h n
  | .left, .left => rotateLeftLeft h n
  | .right, .right => rotateRightRight h n

def rebalance (h : AvlHeap δ) (n : NodeId) : Option (AvlHeap δ × NodeId) := do
  let nn ← h n
  let first : Hand := if nn.nBalance = -2 then .left else .right
  let c ← nn.child first
  let cn ← h c
  let second : Hand := if cn.nBalance = 0 then first else if cn.nBalance = -1 then .left else .right
  rotateBy first second h n

end

section

open TreeZipper AvlNode

variable {δ : Type}

/-- Put `n` under `c`; says whether `c` has become balanced by it, so that its height stays. -/
def hang (s : Hand) (h : AvlHeap δ) (c n : NodeId) : Option (AvlHeap δ × Bool) := do
  let h ← h.edit c (setChild s (some n))
  let h ← h.edit n (setParent (some c))
  let cn ← h c
  if cn.nBalance + s.sign = 0 then
    let h ← h.edit c (tilt s.sign)
    return (h, true)
  else
    return (h, false)

/-- The first loop of `add_node_avltree`, which ends with nothing where the key is there already. -/
def descend (n : NodeId) (key : Text) : Nat → AvlHeap δ → NodeId → Option (Option (AvlHeap δ × Bool))
  | 0, _, _ => none
  | fuel + 1, h, c => do
    let cn ← h c
    match strcmp cn.nKey key with
    | .lt => match cn.nRight with
      | none => (hang .right h c n).map some
      | some r => descend n key fuel h r
    | .gt => match cn.nLeft with
      | none => (hang .left h c n).map some
      | some l => descend n key fuel h l
    | .eq => some none

/-- The second loop of `add_node_avltree`: the subtree at `c` has become one higher. -/
def growUp : Nat → AvlHeap δ → NodeId → Option (AvlHeap δ × NodeId)
  | 0, _, _ => none
  | fuel + 1, h, c => do
    let cn ← h c
    match cn.nParent with
    | none => some (h, c)
    | some p => do
      let pn ← h p
      let h ← h.edit p (tilt (if pn.nLeft = some c then -1 else 1))
      let pn ← h p
      if pn.nBalance = 0 then some (h, p)
      else if 1 < pn.nBalance.natAbs then rebalance h p
      else growUp fuel h p

/-- The third loop of `add_node_avltree`. -/
def climb (h : AvlHeap δ) : Nat → NodeId → Option NodeId
  | 0, _ => none
  | fuel + 1, c => do
    let cn ← h c
    match cn.nParent with
    | none => some c
    | some p => climb h fuel p

/-- More turns than any of the loops takes: they walk over nodes that were made. -/
def AvlTree.fuel (t : AvlTree δ) : Nat := 2 * t.made + 3

def addNode (t : AvlTree δ) (n : NodeId) : Option (AvlTree δ × Int) :=
  match t.tRoot with
  | none => some ({ t with tRoot := some n }, 0)
  | some c => do
    let nn ← t.nodes n
    match ← descend n nn.nKey t.fuel t.nodes c with
    | none => some (t, -1)
    | some (h, flag) => do
      let (h, c) ← if flag then some (h, n) else growUp t.fuel h n
      let root ← climb h t.fuel c
      some ({ t with tRoot := some root, nodes := h }, 0)

/-- Where `p` has `n`, it gets `c`. -/
def replaceChild (h : AvlHeap δ) (p : Option NodeId) (n : NodeId) (c : Option NodeId) :
    Option (AvlHeap δ) :=
  match p with
  | none => some h
  | some p => do
    let pn ← h p
    if pn.nLeft = some n then h.edit p (setChild .left c)
    else if pn.nRight = some n then h.edit p (setChild .right c)
    else some h

def AvlHeap.free (h : AvlHeap δ) (n : NodeId) : Option (AvlHeap δ) :=
  (h n).map fun _ => Function.update h n none

/-- The tree after a node was taken out of it: where the loop goes on, whether it runs, and
whether all heights are as before. -/
structure Cut (δ : Type) where
  heap : AvlHeap δ
  spot : Option NodeId
  run : Bool
  flag : Bool

/-- The first case of `del_node_complex_avltree`: `n` has no right child. -/
def cutLow (h : AvlHeap δ) (n : NodeId) : Option (Cut δ) := do
  let nn ← h n
  let (h, flag) ← match nn.nParent with
    | none => some (h, false)
    | some p => do
      let pn ← h p
      if pn.nLeft = some n then
        let h ← h.edit p (setChild .left nn.nLeft)
        let h ← h.edit p (tilt 1)
        some (h, decide (pn.nBalance = 0))
      else if pn.nRight = some n then
        let h ← h.edit p (setChild .right nn.nLeft)
        let h ← h.edit p (tilt (-1))
        some (h, decide (pn.nBalance = 0))
      else some (h, decide (pn.nBalance = 0))
  let h ← h.editSome nn.nLeft (setParent nn.nParent)
  let h ← h.free n
  return ⟨h, nn.nParent.or nn.nLeft, nn.nParent.isSome, flag⟩

/-- The second case: the right child `c` of `n` has no left child. -/
def cutNext (h : AvlHeap δ) (n c : NodeId) : Option (Cut δ) := do
  let nn ← h n
  let h ← h.edit c (setParent nn.nParent)
  let h ← replaceChild h nn.nParent n (some c)
  let h ← h.edit c (setChild .left nn.nLeft)
  let h ← h.editSome nn.nLeft (setParent (some c))
  let h ← h.edit c (setBalance nn.nBalance)
  let h ← h.free n
  let h ← h.edit c (tilt (-1))
  return ⟨h, some c, true, nn.nParent.isSome && decide (nn.nBalance = 0)⟩

/-- The node from which the left child has no left child, and that left child. -/
def lastLeft (h : AvlHeap δ) : Nat → NodeId → Option (NodeId × NodeId)
  | 0, _ => none
  | fuel + 1, c => do
    let cn ← h c
    let s ← cn.nLeft
    let sn ← h s
    match sn.nLeft with
    | none => some (c, s)
    | some _ => lastLeft h fuel s

/-- The third case: `s`, the next node in order, takes the place of `n`. -/
def cutFar (h : AvlHeap δ) (n c s : NodeId) : Option (Cut δ) := do
  let nn ← h n
  let sn ← h s
  let h ← h.edit s (setChild .left nn.nLeft)
  let l ← nn.nLeft
  let h ← h.edit l (setParent (some s))
  let h ← h.edit c (setChild .left sn.nRight)
  let h ← h.editSome sn.nRight (setParent (some c))
  let h ← h.edit s (setChild .right nn.nRight)
  let h ← h.editSome nn.nRight (setParent (some s))
  let h ← h.edit s (setBalance nn.nBalance)
  let h ← h.edit s (setParent nn.nParent)
  let h ← replaceChild h nn.nParent n (some s)
  let h ← h.free n
  let cn ← h c
  let h ← h.edit c (tilt 1)
  return ⟨h, some c, true, decide (cn.nBalance = 0)⟩

def isLevel (h : AvlHeap δ) (c : Option NodeId) : Option Bool :=
  match c with
  | none => some false
  | some c => (h c).map fun n => decide (n.nBalance = 0)

/-- The loop of `del_node_complex_avltree`: unless the flag is set, the subtree at `c` has become
one lower. -/
def settle : Nat → AvlHeap δ → NodeId → Bool → Option (AvlHeap δ × NodeId)
  | 0, _, _, _ => none
  | fuel + 1, h, c, flag => do
    let cn ← h c
    if flag then
      match cn.nParent with
      | none => some (h, c)
      | some p => settle fuel h p true
    else if 1 < cn.nBalance.natAbs then do
      let flag ← isLevel h (if 1 < cn.nBalance then cn.nRight else cn.nLeft)
      let (h, c) ← rebalance h c
      settle fuel h c flag
    else
      match cn.nParent with
      | none => some (h, c)
      | some p => do
        let pn ← h p
        let h ← if pn.nLeft = some c then h.edit p (tilt 1)
          else if pn.nRight = some c then h.edit p (tilt (-1))
          else some h
        settle fuel h p (decide (pn.nBalance = 0))

def cutNode (t : AvlTree δ) (n : NodeId) : Option (Cut δ) := do
  let nn ← t.nodes n
  match nn.nRight with
  | none => cutLow t.nodes n
  | some c => do
    let cn ← t.nodes c
    match cn.nLeft with
    | none => cutNext t.nodes n c
    | some _ => do
      let (c, s) ← lastLeft t.nodes t.fuel c
      cutFar t.nodes n c s

/-- The loop, where it runs, and the root it leaves. -/
def finishCut (fuel : Nat) (cut : Cut δ) : Option (AvlHeap δ × Option NodeId) :=
  match cut.spot with
  | none => some (cut.heap, none)
  | some c =>
    if cut.run then (settle fuel cut.heap c cut.flag).map fun (h, c) => (h, some c)
    else some (cut.heap, some c)

/-- `del_node_complex_avltree`. -/
def delNode (t : AvlTree δ) (n : NodeId) : Option (AvlTree δ × Int) := do
  let cut ← cutNode t n
  let (h, root) ← finishCut t.fuel cut
  some ({ t with tRoot := root, nodes := h }, 0)

def findFrom (h : AvlHeap δ) (key : Text) : Nat → Option NodeId → Option (Option NodeId)
  | 0, _ => none
  | _ + 1, none => some none
  | fuel + 1, some c => do
    let cn ← h c
    match strcmp key cn.nKey with
    | .eq => some (some c)
    | .lt => findFrom h key fuel cn.nLeft
    | .gt => findFrom h key fuel cn.nRight

def findNameNode (t : AvlTree δ) (key : Text) : Option (Option NodeId) :=
  findFrom t.nodes key t.fuel t.tRoot

def findData (t : AvlTree δ) (key : Text) : Option (Option δ) := do
  match ← findNameNode t key with
  | none => some none
  | some n => do
    let nn ← t.nodes n
    some nn.nData

def createNode (t : AvlTree δ) (key : Text) (data : Option δ) : AvlTree δ × NodeId :=
  ({ t with
      nodes := Function.update t.nodes t.made (some { nKey := key, nData := data }),
      made := t.made + 1 }, t.made)

def storeExposedNode (t : AvlTree δ) (key : Text) (data : Option δ) :
    Option (AvlTree δ × Option NodeId) := do
  let (t, n) := createNode t key data
  let (t, r) ← addNode t n
  if r < 0 then do
    let h ← t.nodes.free n
    some ({ t with nodes := h }, none)
  else some (t, some n)

def storeNamedNode (t : AvlTree δ) (key : Text) (data : Option δ) : Option (AvlTree δ × Int) := do
  match ← storeExposedNode t key data with
  | (t, none) => some (t, -1)
  | (t, some _) => some (t, 0)

def delNameNode (t : AvlTree δ) (key : Text) : Option (AvlTree δ × Int) := do
  match ← findNameNode t key with
  | none => some (t, -1)
  | some n => delNode t n

end

end Katcp
