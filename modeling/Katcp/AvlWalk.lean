import Katcp.AvlRun

namespace Katcp

section

open TreeZipper AvlNode BinaryTree AvlPiece

variable {δ γ : Type}

/-- Push a node and those that its left links lead to. -/
def pushLeft (h : AvlHeap δ) : Nat → Option NodeId → List NodeId → Option (List NodeId)
  | _, none, s => some s
  | 0, some _, _ => none
  | fuel + 1, some c, s => do
    let cn ← h c
    pushLeft h fuel cn.nLeft (c :: s)

/-- What a callback does to its context; its result is not looked at. -/
def visit (callback : Option (γ → Text → Option δ → γ × Int)) (n : AvlNode δ) (g : γ) : γ :=
  match callback with
  | none => g
  | some f => (f g n.nKey n.nData).1

/-- The loop over the stack; a stack never holds a null pointer. -/
def popLoop (callback : Option (γ → Text → Option δ → γ × Int)) (inner : Nat) (h : AvlHeap δ) :
    Nat → List NodeId → γ → Option γ
  | _, [], g => some g
  | 0, _ :: _, _ => none
  | fuel + 1, c :: s, g => do
    let cn ← h c
    let s ← pushLeft h inner cn.nRight s
    popLoop callback inner h fuel s (visit callback cn g)

/-- `complex_inorder_traverse_avltree`. There is memory for the stack. -/
def inorderTraverse (t : AvlTree δ) (callback : Option (γ → Text → Option δ → γ × Int)) (g : γ) : Option γ :=
  match t.tRoot with
  | none => some g
  | some n => do
    let s ← pushLeft t.nodes t.fuel (some n) []
    popLoop callback t.fuel t.nodes t.fuel s g

/-- Give back the payload of a node, if it has one and there is a function for it. -/
def releasePayload (complexFree : Option (γ → Text → δ → γ)) (n : AvlNode δ) (g : γ) : γ :=
  match complexFree, n.nData with
  | some f, some d => f g n.nKey d
  | _, _ => g

/-- The loop of `destroy_complex_avltree`. -/
def destroyLoop (complexFree : Option (γ → Text → δ → γ)) :
    Nat → AvlHeap δ → Option NodeId → γ → Option (AvlHeap δ × γ)
  | _, h, none, g => some (h, g)
  | 0, _, some _, _ => none
  | fuel + 1, h, some c, g => do
    let cn ← h c
    match cn.nLeft.or cn.nRight with
    | some down => destroyLoop complexFree fuel h (some down) g
    | none => do
      let h ← replaceChild h cn.nParent c none
      let h ← h.free c
      destroyLoop complexFree fuel h cn.nParent (releasePayload complexFree cn g)

def destroyTree (t : AvlTree δ) (complexFree : Option (γ → Text → δ → γ)) (g : γ) : Option (AvlHeap δ × γ) :=
  destroyLoop complexFree t.fuel t.nodes t.tRoot g

/-- The entries of a tree with each subtree before its root. -/
def postorder : AvlShape δ → List (AvlEntry δ)
  | nil => []
  | BinaryTree.node x l r => postorder l ++ postorder r ++ [x.1]

/-- The payloads that entries store, with the keys they are stored under. -/
def payloads (es : List (AvlEntry δ)) : List (Text × δ) := es.filterMap fun e => e.data.map fun d => (e.key, d)

/-- The entry of a node is given to the callback. -/
def visitEntry (callback : Option (γ → Text → Option δ → γ × Int)) (g : γ) (e : AvlEntry δ) : γ :=
  match callback with
  | none => g
  | some f => (f g e.key e.data).1

def releaseEntry (complexFree : Option (γ → Text → δ → γ)) (g : γ) (e : AvlEntry δ) : γ :=
  match complexFree, e.data with
  | some f, some d => f g e.key d
  | _, _ => g

variable {callback : Option (γ → Text → Option δ → γ × Int)} {complexFree : Option (γ → Text → δ → γ)}
  {h : AvlHeap δ} {up : Option NodeId} {t l r shape : AvlShape δ} {p above : AvlPath δ} {e : AvlEntry δ × Int}
  {fuel inner outer : Nat} {s : List NodeId} {g : γ} {tree : AvlTree δ}

theorem linked_node (hl : Linked h up (BinaryTree.node e l r)) :
    h e.1.id = some (nodeRecord .left up (rootId l) (rootId r) e) ∧ Linked h (some e.1.id) l ∧
      Linked h (some e.1.id) r := hl

/-- Walking over a subtree gives its entries to the callback in their order, and leaves the stack
as it was below. -/
theorem walk_subtree (hl : Linked h up t) (hinner : (inorder t).length ≤ inner) (houter : (inorder t).length ≤ outer) :
    ((pushLeft h inner (rootId t) s).bind fun s => popLoop callback outer h (fuel + (inorder t).length) s g) =
      popLoop callback outer h fuel s ((treeEntries t).foldl (visitEntry callback) g) := by
  induction t generalizing up inner fuel s g with
  | nil => rw [rootId, pushLeft, Option.bind_some, inorder]; rfl
  | node x l r ihl ihr =>
    obtain ⟨hx, hll, hlr⟩ := linked_node hl
    rw [inorder, List.length_append, List.length_cons] at hinner houter ⊢
    obtain ⟨inner, rfl⟩ : ∃ k, inner = k + 1 := ⟨inner - 1, by omega⟩
    have hpush : pushLeft h (inner + 1) (rootId (BinaryTree.node x l r)) s = pushLeft h inner (rootId l) (x.1.id :: s) := by
      rw [rootId, pushLeft, hx]
      rfl
    have hleft := @ihl _ (fuel + (inorder r).length + 1) inner (x.1.id :: s) g hll (by omega) (by omega)
    rw [hpush, show fuel + ((inorder l).length + ((inorder r).length + 1)) =
      fuel + (inorder r).length + 1 + (inorder l).length by omega, hleft, popLoop, hx]
    rw [treeEntries_node, List.foldl_append, List.foldl_cons]
    exact ihr hlr (by omega) (by omega)

/-- The traversal gives every entry to the callback once, in the order of the keys. -/
theorem inorderTraverse_spec (hs : AvlSound tree shape) :
    inorderTraverse tree callback g = some ((treeEntries shape).foldl (visitEntry callback) g) := by
  have hl : Linked tree.nodes none shape := hs.stores.holds (AvlPiece.tree none shape) (List.mem_singleton_self _)
  have hsize := hs.length_le
  have hfuel : tree.fuel = 2 * tree.made + 3 := rfl
  obtain ⟨rest, hrest⟩ : ∃ rest, tree.fuel = rest + (inorder shape).length := ⟨tree.fuel - (inorder shape).length, by omega⟩
  have hwalk := @walk_subtree _ _ callback _ _ _ rest _ _ [] g hl
    (show (inorder shape).length ≤ tree.fuel by omega) (show (inorder shape).length ≤ tree.fuel by omega)
  rw [← hrest] at hwalk
  unfold inorderTraverse
  rw [hs.root]
  cases hr : rootId shape with
  | none =>
    cases shape with
    | nil => rfl
    | node x l r => cases hr
  | some n =>
    rw [hr] at hwalk
    refine hwalk.trans ?_
    cases rest <;> rfl

/-- A leaf is given back, and its parent has nothing in its place. -/
theorem destroy_leaf (hs : Stores h (plug p (join .left e nil nil))) :
    ∃ h', Stores h' (plug p nil) ∧ ∀ fuel g, destroyLoop complexFree (fuel + 1) h (some e.1.id) g =
      destroyLoop complexFree fuel h' (upper none p) (releaseEntry complexFree g e.1) := by
  have hx := Stores.root hs
  have h0 := Scene.dropNil [_] (Stores.split hs)
  obtain ⟨h1, e1, s1⟩ := Scene.replaceChild [_, _] h0 (Scene.off_path [_, _] h0 (List.mem_cons_self ..)) none
  obtain ⟨h2, e2, s2⟩ := Scene.free [] s1
  have hst : Stores h2 (plug p nil) := by
    refine Scene.unzoom [] (@Scene.recut _ _ [] _ [_] [_] s2 ?_ ?_)
    · exact List.Perm.refl _
    · intro x hx
      cases List.mem_singleton.mp hx
      trivial
  refine ⟨h2, hst, fun fuel g => ?_⟩
  have hroot : h e.1.id = some (nodeRecord .left (upper none p) none none e) := hx
  rw [destroyLoop, hroot]
  simp only [nodeRecord, Option.bind_eq_bind, Option.bind_some, Option.or_none, e1, e2]
  rfl

/-- Each subtree that is not empty is given back in its post order, and the loop goes on above it. -/
def Clears (complexFree : Option (γ → Text → δ → γ)) (t : AvlShape δ) : Prop :=
  ∀ (p : AvlPath δ) (h : AvlHeap δ), t ≠ nil → Stores h (plug p t) → ∃ h', Stores h' (plug p nil) ∧
    ∀ k fuel g, 2 * (inorder t).length = k + 1 → destroyLoop complexFree (fuel + k) h (rootId t) g =
      destroyLoop complexFree fuel h' (upper none p) ((postorder t).foldl (releaseEntry complexFree) g)

theorem exists_root (ht : t ≠ nil) : ∃ c, rootId t = some c ∧ 0 < (inorder t).length := by
  cases t with
  | nil => exact absurd rfl ht
  | node y l r => exact ⟨y.1.id, rfl, by rw [inorder, List.length_append]; exact Nat.succ_pos _⟩

theorem clears_right (hr : Clears complexFree r) : Clears complexFree (BinaryTree.node e nil r) := by
  intro p h _ hs
  by_cases hnil : r = nil
  · subst hnil
    obtain ⟨h', hst, hgoes⟩ := @destroy_leaf _ _ complexFree _ _ _ hs
    refine ⟨h', hst, fun k fuel g hk => ?_⟩
    obtain rfl : k = 1 := by
      simp only [inorder, List.nil_append, List.length_cons, List.length_nil] at hk
      omega
    exact hgoes fuel g
  · obtain ⟨c, hc, hlen⟩ := exists_root hnil
    obtain ⟨h1, hs1, hright⟩ := hr (⟨.right, e, nil⟩ :: p) h hnil hs
    obtain ⟨h', hst, hgoes⟩ := @destroy_leaf _ _ complexFree _ p e hs1
    refine ⟨h', hst, fun k fuel g hk => ?_⟩
    have hx : h e.1.id = some (nodeRecord .left (upper none p) none (rootId r) e) := Stores.root (s := .left) hs
    have hdown : ∀ fuel, destroyLoop complexFree (fuel + 1) h (some e.1.id) g =
        destroyLoop complexFree fuel h (rootId r) g := by
      intro fuel
      rw [destroyLoop, hx, hc]
      rfl
    rw [inorder, List.length_append, List.length_cons] at hk
    obtain ⟨j, rfl⟩ : ∃ j, k = j + 2 := ⟨k - 2, by omega⟩
    have hgo := hright j (fuel + 1) g (by
      rw [show (inorder (nil : AvlShape δ)).length = 0 from rfl] at hk
      omega)
    show destroyLoop complexFree (fuel + (j + 2)) h (some e.1.id) g = _
    rw [show fuel + (j + 2) = fuel + 1 + j + 1 by omega, hdown, hgo]
    refine (hgoes fuel _).trans ?_
    rw [postorder, postorder, List.nil_append, List.foldl_append]
    rfl

theorem clears (t : AvlShape δ) : Clears complexFree t := by
  induction t with
  | nil => exact fun _ _ hne => absurd rfl hne
  | node e l r ihl ihr =>
    intro p h hne hs
    by_cases hnil : l = nil
    · subst hnil
      exact clears_right ihr p h hne hs
    · obtain ⟨c, hc, hlen⟩ := exists_root hnil
      obtain ⟨h1, hs1, hleft⟩ := ihl (⟨.left, e, r⟩ :: p) h hnil hs
      obtain ⟨h', hst, hgoes⟩ := clears_right (e := e) ihr p h1 (by simp) hs1
      refine ⟨h', hst, fun k fuel g hk => ?_⟩
      have hx : h e.1.id = some (nodeRecord .left (upper none p) (rootId l) (rootId r) e) := Stores.root (s := .left) hs
      have hdown : ∀ fuel, destroyLoop complexFree (fuel + 1) h (some e.1.id) g =
          destroyLoop complexFree fuel h (rootId l) g := by
        intro fuel
        rw [destroyLoop, hx, hc]
        rfl
      rw [inorder, List.length_append, List.length_cons] at hk
      -- the way down to the left, then what it takes there, then the node with what is on its right
      obtain ⟨i, j, rfl, hi, hj⟩ : ∃ i j, k = i + j + 1 ∧ 2 * (inorder l).length = i + 1 ∧
          2 * ((inorder r).length + 1) = j + 1 := ⟨2 * (inorder l).length - 1, 2 * (inorder r).length + 1, by omega⟩
      have hgo := hleft i (fuel + j) g hi
      have hrest := hgoes j fuel ((postorder l).foldl (releaseEntry complexFree) g) hj
      show destroyLoop complexFree (fuel + (i + j + 1)) h (some e.1.id) g = _
      rw [show fuel + (i + j + 1) = fuel + j + i + 1 by omega, hdown, hgo]
      refine hrest.trans ?_
      rw [postorder, postorder, postorder, List.foldl_append, List.foldl_append, List.foldl_append, List.foldl_append]
      rfl

/-- Destroying a tree gives back each payload once, and leaves no node. -/
theorem destroyTree_spec (hs : AvlSound tree shape) :
    ∃ h', destroyTree tree complexFree g = some (h', (postorder shape).foldl (releaseEntry complexFree) g) ∧
      ∀ i, h' i = none := by
  have hsize := hs.length_le
  have hfuel : tree.fuel = 2 * tree.made + 3 := rfl
  have hnone : ∀ h' : AvlHeap δ, Stores h' (nil : AvlShape δ) → ∀ i, h' i = none := by
    intro h' hst i
    have hcell := hst.cells i
    simpa [sceneIds, AvlPiece.ids, treeIds, inorder] using hcell
  unfold destroyTree
  rw [hs.root]
  by_cases hnil : shape = nil
  · subst hnil
    refine ⟨tree.nodes, ?_, hnone _ hs.stores⟩
    rw [rootId, destroyLoop]
    rfl
  · obtain ⟨c, hc, hlen⟩ := exists_root hnil
    obtain ⟨h', hst, hgoes⟩ := @clears _ _ complexFree shape [] tree.nodes hnil hs.stores
    obtain ⟨k, rest, hk, hrest⟩ : ∃ k rest, 2 * (inorder shape).length = k + 1 ∧ tree.fuel = rest + k :=
      ⟨2 * (inorder shape).length - 1, tree.fuel - (2 * (inorder shape).length - 1), by omega⟩
    refine ⟨h', ?_, hnone _ hst⟩
    rw [hrest, hgoes k rest g hk, upper, destroyLoop]

theorem postorder_perm (t : AvlShape δ) : (postorder t).Perm (treeEntries t) := by
  induction t with
  | nil => exact List.Perm.refl _
  | node e l r ihl ihr =>
    rw [postorder, treeEntries_node, List.append_assoc]
    exact ihl.append ((ihr.append_right _).trans (List.perm_append_singleton _ _))

/-- The nodes of a tree, in the order of their keys. -/
structure NodesListed (tree : AvlTree δ) (es : List (AvlEntry δ)) : Prop where
  ascending : es.Pairwise fun a b => strcmp a.key b.key = .lt
  once : (es.map (·.id)).Nodup
  nodes : ∀ i, (tree.nodes i).isSome ↔ i ∈ es.map (·.id)
  records : ∀ e ∈ es, ∃ n, tree.nodes e.id = some n ∧ n.nKey = e.key ∧ n.nData = e.data

theorem AvlSound.listed (hs : AvlSound tree shape) : NodesListed tree (treeEntries shape) where
  ascending := hs.ascending
  once := by
    rw [← treeIds_eq]
    exact hs.nodup
  nodes i := by
    rw [← treeIds_eq]
    exact hs.cells i
  records e he := by
    obtain ⟨p, x, l, r, rfl, rfl⟩ := Katcp.exists_plug he
    exact ⟨_, hs.stores.root, rfl, rfl⟩

theorem foldl_release (f : γ → Text → δ → γ) (es : List (AvlEntry δ)) (g : γ) :
    es.foldl (releaseEntry (some f)) g = (payloads es).foldl (fun g kd => f g kd.1 kd.2) g := by
  induction es generalizing g with
  | nil => rfl
  | cons e es ih =>
    rw [List.foldl_cons, ih]
    cases hd : e.data with
    | none => simp [payloads, releaseEntry, hd]
    | some d => simp [payloads, releaseEntry, hd]

end

section

open TreeZipper BinaryTree

/-- A tree of one key. -/
def oneKey : AvlTree Nat :=
  ⟨some 0, fun i => if i = 0 then some ⟨none, none, none, 0, [97], some 5⟩ else none, 1⟩

def oneKeyShape : AvlShape Nat := BinaryTree.node (⟨0, [97], some 5⟩, 0) nil nil

theorem oneKey_sound : AvlSound oneKey oneKeyShape := by
  refine ⟨⟨?_, ?_, fun i => ?_⟩, rfl, ?_, ?_, ?_⟩
  · intro x hx
    cases List.mem_singleton.mp hx
    exact ⟨rfl, trivial, trivial⟩
  · simp [sceneIds, AvlPiece.ids, treeIds, oneKeyShape, inorder]
  · simp [sceneIds, AvlPiece.ids, treeIds, oneKeyShape, inorder, oneKey]
  · exact ⟨by decide, by decide, trivial, trivial⟩
  · exact List.pairwise_singleton _ _
  · simp [treeIds, oneKeyShape, inorder, oneKey]

end

end Katcp
