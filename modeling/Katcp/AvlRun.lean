import Katcp.AvlDelete

namespace Katcp

section

open TreeZipper AvlNode BinaryTree AvlPiece

variable {δ : Type} {p : AvlPath δ} {l r shape : AvlShape δ} {e : AvlEntry δ × Int} {tree : AvlTree δ}
  {key k : Text} {x : AvlEntry δ} {as bs : List (AvlEntry δ)}

theorem treeEntries_plug (p : AvlPath δ) (t : AvlShape δ) :
    treeEntries (plug p t) = (before p).map (·.1) ++ treeEntries t ++ (after p).map (·.1) := by
  simp [treeEntries, inorder_plug]

theorem exists_plug (hx : x ∈ treeEntries shape) :
    ∃ p e l r, shape = plug p (join .left e l r) ∧ e.1 = x := by
  induction shape with
  | nil => cases hx
  | node z l r ihl ihr =>
    rw [treeEntries_node] at hx
    rcases List.mem_append.mp hx with hx | hx
    · obtain ⟨p, e, l', r', rfl, he⟩ := ihl hx
      refine ⟨p ++ [⟨.left, z, r⟩], e, l', r', ?_, he⟩
      rw [plug_append]
      rfl
    rcases List.mem_cons.mp hx with rfl | hx
    · exact ⟨[], z, l, r, rfl, rfl⟩
    · obtain ⟨p, e, l', r', rfl, he⟩ := ihr hx
      refine ⟨p ++ [⟨.right, z, l⟩], e, l', r', ?_, he⟩
      rw [plug_append]
      rfl

theorem cutNode_spec (hs : AvlSound tree (plug p (join .left e l r))) :
    ∃ cut, cutNode tree e.1.id = some cut ∧ Finishes tree.fuel cut
      ((before p).map (·.1) ++ (treeEntries l ++ treeEntries r) ++ (after p).map (·.1)) := by
  have hroot := hs.stores.root
  have hsize := hs.length_le
  have hlen := length_le_length p (join .left e l r)
  rw [height_join] at hlen
  have hfuel : tree.fuel = 2 * tree.made + 3 := rfl
  cases hr : rootId r with
  | none =>
    cases r with
    | node z l' r' => cases hr
    | nil =>
      have hcut : cutNode tree e.1.id = cutLow tree.nodes e.1.id := by
        rw [cutNode, hroot]
        rfl
      rw [hcut, show treeEntries (nil : AvlShape δ) = [] from rfl, List.append_nil, ← treeEntries_plug]
      cases p with
      | nil => exact cutLow_root hs.stores (balanced_join.mp hs.balanced).2.2.1 
      | cons f above =>
        refine cutLow_spec hs.stores hs.balanced ?_
        simp only [List.length_cons] at hlen
        omega
  | some i =>
    cases r with
    | nil => cases hr
    | node c cl cr =>
      cases hr
      have hsplit : Scene tree.nodes [_, _, AvlPiece.tree (some e.1.id) (join .left c cl cr), _] :=
        Stores.split (s := .left) hs.stores
      have hc : tree.nodes c.1.id = some (nodeRecord .left (some e.1.id) (rootId cl) (rootId cr) c) :=
        (Scene.split [_, _] hsplit).holds _
          (List.mem_cons_of_mem _ (List.mem_cons_of_mem _ (List.mem_cons_self ..)))
      have hcut : cutNode tree e.1.id = (rootId cl).elim (cutNext tree.nodes e.1.id c.1.id)
          fun _ => (lastLeft tree.nodes tree.fuel c.1.id).bind fun q => cutFar tree.nodes e.1.id q.1 q.2 := by
        rw [cutNode, hroot]
        cases cl <;> simp only [Option.bind_eq_bind, Option.bind_some, nodeRecord, rootId, hc, Option.elim]
      by_cases hcl : cl = nil
      · subst hcl
        obtain ⟨cut, he, hf⟩ := cutNext_spec (c := c) hs.stores hs.balanced
          (show 2 * p.length + 2 < tree.fuel by omega)
        refine ⟨cut, hcut.trans he, ?_⟩
        rw [treeEntries_plug] at hf
        simpa [treeEntries, join, inorder] using hf
      · obtain ⟨j, hj⟩ : ∃ j, rootId cl = some j := by
          cases cl with
          | nil => exact absurd rfl hcl
          | node y _ _ => exact ⟨y.1.id, rfl⟩
        have hlinked : Linked tree.nodes (some e.1.id) (join .left c cl cr) :=
          (Stores.split (s := .left) hs.stores).holds (AvlPiece.tree (some e.1.id) (join .left c cl cr))
            (by simp [join])
        have hheight : (join .left c cl cr).height < tree.fuel := by
          have : (join .left c cl cr).height = (BinaryTree.node c cl cr).height := rfl
          omega
        obtain ⟨f, q, x, u, hlast, hside, hbefore, hplug⟩ := lastLeft_spec hlinked hcl hheight
        rw [hj, Option.elim_some, hlast, Option.bind_some] at hcut
        rw [hcut]
        have hst := hs.stores
        have hbal := hs.balanced
        have hlong := length_le_length (q ++ ⟨.right, e, l⟩ :: p) (f.fill (join .left x nil u))
        rw [plug_append] at hlong
        have hwhole : BinaryTree.node c cl cr = plug (f :: q) (join .left x nil u) := hplug.symm
        rw [hwhole] at hst hbal hsize ⊢
        have hsize' : (inorder (plug (⟨.right, e, l⟩ :: p)
            (plug q (f.fill (join .left x nil u))))).length ≤ tree.made := hsize
        simp only [List.length_append, List.length_cons] at hlong
        obtain ⟨cut, he, hf⟩ := cutFar_spec hside hst hbal
          (show 2 * (q.length + p.length + 1) + 2 < tree.fuel by omega)
        refine ⟨cut, he, ?_⟩
        have hent : treeEntries (plug p (join .left x l (plug (f :: q) u))) = (before p).map (·.1) ++
            (treeEntries l ++ treeEntries (plug (f :: q) (join .left x nil u))) ++ (after p).map (·.1) := by
          rw [treeEntries_plug, treeEntries_plug, hbefore]
          have hin : inorder (plug (f :: q) u) = inorder u ++ after (f :: q) := by
            rw [inorder_plug, hbefore, List.nil_append]
          simp [treeEntries, join, inorder, hin]
        rwa [hent] at hf

/-- Deleting a node takes out what it stores, and nothing else. -/
theorem delNode_spec (hs : AvlSound tree (plug p (join .left e l r))) :
    ∃ t' shape', delNode tree e.1.id = some (t', 0) ∧ AvlSound t' shape' ∧ t'.made = tree.made ∧
      ∀ k, entryOf (treeEntries shape') k =
        if k = e.1.key then none else entryOf (treeEntries (plug p (join .left e l r))) k := by
  obtain ⟨cut, hcut, h', t', hfin, hst, hbal, hent⟩ := cutNode_spec hs
  set as := (before p).map (·.1) ++ treeEntries l with has
  set bs := treeEntries r ++ (after p).map (·.1) with hbs
  have hold : treeEntries (plug p (join .left e l r)) = as ++ e.1 :: bs := by
    rw [treeEntries_plug]
    simp [as, bs, treeEntries, join, inorder]
  have hout : as ++ bs = (before p).map (·.1) ++ (treeEntries l ++ treeEntries r) ++ (after p).map (·.1) := by
    simp [as, bs]
  rw [← hout] at hent
  have hasc := hs.ascending
  rw [hold] at hasc
  obtain ⟨ha, hb, hab⟩ := List.pairwise_append.mp hasc
  obtain ⟨heb, hb⟩ := List.pairwise_cons.mp hb
  have hae : ∀ y ∈ as, KeyLt y.key e.1.key := fun y hy => hab y hy _ (List.mem_cons_self ..)
  refine ⟨{ tree with tRoot := rootId t', nodes := h' }, t', ?_, ⟨hst, rfl, hbal, ?_, ?_⟩, rfl, ?_⟩
  · simp [delNode, hcut, hfin]
  · rw [hent]
    exact List.pairwise_append.mpr ⟨ha, hb, fun y hy z hz => hab y hy z (List.mem_cons_of_mem _ hz)⟩
  · intro i hi
    refine hs.made i ?_
    rw [treeIds_eq, hent] at hi
    rw [treeIds_eq, hold]
    simp only [List.map_append, List.map_cons, List.mem_append, List.mem_cons] at hi ⊢
    tauto
  · intro k
    rw [hent, hold, entryOf_between hae]
    by_cases hk : k = e.1.key
    · subst hk
      rw [if_pos rfl, entryOf_outside hae heb]
    · rw [if_neg hk, if_neg hk]

end

section

open TreeZipper AvlNode BinaryTree AvlPiece

variable {δ : Type} {h : AvlHeap δ} {p : AvlPath δ} {t l r shape : AvlShape δ} {up : Option NodeId}
  {i j : NodeId} {n m : AvlNode δ} {tree : AvlTree δ} {key : Text} {e : AvlEntry δ}

/-- The nodes link up: each is the child of its parent and the parent of its children, and the
root alone has no parent. -/
structure NodesMatch (t : AvlTree δ) : Prop where
  child : ∀ i n j, t.nodes i = some n → n.nLeft = some j ∨ n.nRight = some j →
    ∃ m, t.nodes j = some m ∧ m.nParent = some i
  parent : ∀ j m i, t.nodes j = some m → m.nParent = some i →
    ∃ n, t.nodes i = some n ∧ (n.nLeft = some j ∨ n.nRight = some j)
  root : ∀ i n, t.nodes i = some n → (n.nParent = none ↔ t.tRoot = some i)

theorem Linked.root (hl : Linked h up t) (hr : rootId t = some i) : ∃ n, h i = some n ∧ n.nParent = up := by
  cases t with
  | nil => cases hr
  | node x l r =>
    cases hr
    exact ⟨_, hl.1, rfl⟩

theorem Linked.child (hl : Linked h up t) (hi : i ∈ treeIds t) (hn : h i = some n)
    (hj : n.nLeft = some j ∨ n.nRight = some j) : ∃ m, h j = some m ∧ m.nParent = some i := by
  induction t generalizing up with
  | nil => cases hi
  | node x l r ihl ihr =>
    obtain ⟨hx, hl, hr⟩ := hl
    simp only [treeIds, inorder, List.map_append, List.map_cons, List.mem_append, List.mem_cons] at hi
    rcases hi with hi | rfl | hi
    · exact ihl hl hi
    · rw [hx] at hn
      cases hn
      exact hj.elim (fun hj => hl.root hj) (fun hj => hr.root hj)
    · exact ihr hr hi

theorem Linked.parent (hl : Linked h up t) (hi : i ∈ treeIds t) (hn : h i = some n) :
    rootId t = some i ∧ n.nParent = up ∨
      ∃ j m, n.nParent = some j ∧ h j = some m ∧ (m.nLeft = some i ∨ m.nRight = some i) := by
  induction t generalizing up with
  | nil => cases hi
  | node x l r ihl ihr =>
    obtain ⟨hx, hl, hr⟩ := hl
    simp only [treeIds, inorder, List.map_append, List.map_cons, List.mem_append, List.mem_cons] at hi
    rcases hi with hi | rfl | hi
    · rcases ihl hl hi with ⟨hroot, hup⟩ | hdeep
      · exact Or.inr ⟨x.1.id, _, hup, hx, Or.inl hroot⟩
      · exact Or.inr hdeep
    · rw [hx] at hn
      cases hn
      exact Or.inl ⟨rfl, rfl⟩
    · rcases ihr hr hi with ⟨hroot, hup⟩ | hdeep
      · exact Or.inr ⟨x.1.id, _, hup, hx, Or.inr hroot⟩
      · exact Or.inr hdeep

theorem AvlSound.links (hs : AvlSound tree shape) : NodesMatch tree := by
  have hl : Linked tree.nodes none shape := hs.stores.holds _ (List.mem_cons_self ..)
  have hmem : ∀ {i n}, tree.nodes i = some n → i ∈ treeIds shape := fun hi =>
    (hs.cells _).mp (by simp [hi])
  refine ⟨fun i n j hi hj => hl.child (hmem hi) hi hj, fun j m i hj hp => ?_,
    fun i n hi => ⟨fun hp => ?_, fun hr => ?_⟩⟩
  · rcases hl.parent (hmem hj) hj with ⟨_, hup⟩ | ⟨i', n, hup, hi', hc⟩
    · rw [hup] at hp
      cases hp
    · rw [hup] at hp
      cases hp
      exact ⟨n, hi', hc⟩
  · rcases hl.parent (hmem hi) hi with ⟨hroot, _⟩ | ⟨i', n', hup, _⟩
    · exact hs.root.trans hroot
    · rw [hup] at hp
      cases hp
  · obtain ⟨n', hi', hup⟩ := hl.root (hs.root.symm.trans hr)
    rw [hi] at hi'
    cases hi'
    exact hup

theorem findNameNode_spec (hs : AvlSound tree shape) (key : Text) :
    findNameNode tree key = some ((entryOf (treeEntries shape) key).map (·.id)) := by
  have hsize := hs.length_le
  have hh := length_le_length [] shape
  have hfuel : tree.fuel = 2 * tree.made + 3 := rfl
  simp only [plug] at hh
  rw [findNameNode, hs.root]
  exact findFrom_spec (hs.stores.holds _ (List.mem_cons_self ..)) hs.ascending (by omega)

/-- The node of an entry holds its key and its payload. -/
theorem AvlSound.entry (hs : AvlSound tree shape) (he : entryOf (treeEntries shape) key = some e) :
    e.key = key ∧ ∃ n, tree.nodes e.id = some n ∧ n.nKey = key ∧ n.nData = e.data := by
  have hkey : e.key = key := by simpa using List.find?_some he
  obtain ⟨p, x, l, r, rfl, rfl⟩ := exists_plug (List.mem_of_find?_eq_some he)
  exact ⟨hkey, _, hs.stores.root, hkey, rfl⟩

theorem findData_spec (hs : AvlSound tree shape) (key : Text) :
    findData tree key = some ((entryOf (treeEntries shape) key).bind (·.data)) := by
  rw [findData, findNameNode_spec hs]
  cases he : entryOf (treeEntries shape) key with
  | none => rfl
  | some e =>
    obtain ⟨_, n, hn, _, hdata⟩ := hs.entry he
    simp [hn, hdata]

theorem AvlSound.exists_plug (hs : AvlSound tree shape) (hi : (tree.nodes i).isSome) :
    ∃ p x l r, shape = plug p (join .left x l r) ∧ x.1.id = i := by
  have hmem := (hs.cells i).mp hi
  rw [treeIds_eq] at hmem
  obtain ⟨e, he, rfl⟩ := List.mem_map.mp hmem
  obtain ⟨p, x, l, r, hshape, rfl⟩ := Katcp.exists_plug he
  exact ⟨p, x, l, r, hshape, rfl⟩

theorem delNameNode_absent (hs : AvlSound tree shape) (he : entryOf (treeEntries shape) key = none) :
    delNameNode tree key = some (tree, -1) := by
  rw [delNameNode, findNameNode_spec hs, he]
  rfl

theorem delNameNode_spec (hs : AvlSound tree shape) (he : entryOf (treeEntries shape) key = some e) :
    ∃ t' shape', delNameNode tree key = some (t', 0) ∧ AvlSound t' shape' ∧
      ∀ k, entryOf (treeEntries shape') k = if k = key then none else entryOf (treeEntries shape) k := by
  have hkey := (hs.entry he).1
  obtain ⟨p, x, l, r, rfl, rfl⟩ := exists_plug (List.mem_of_find?_eq_some he)
  obtain ⟨t', shape', hdel, hs', _, hent⟩ := delNode_spec hs
  refine ⟨t', shape', ?_, hs', hkey ▸ hent⟩
  rw [delNameNode, findNameNode_spec hs, he]
  simpa using hdel

end

section

open TreeZipper BinaryTree

variable {δ : Type}

inductive AvlAction (δ : Type) where
  | store (key : Text) (data : Option δ)
  | deleteName (key : Text)
  | deleteNode (n : NodeId)

inductive AvlEvent (δ : Type) where
  | stored (e : AvlEntry δ)
  | refused (key : Text)
  | deleted (key : Text)
  | absent (key : Text)

def avlStep (t : AvlTree δ) : AvlAction δ → Option (AvlTree δ)
  | .store key data => (storeExposedNode t key data).map (·.1)
  | .deleteName key => (delNameNode t key).map (·.1)
  | .deleteNode n => (delNode t n).map (·.1)

/-- What an operation says to its caller. -/
def avlSays (t : AvlTree δ) : AvlAction δ → List (AvlEvent δ)
  | .store key data => match storeExposedNode t key data with
    | some (_, some n) => [.stored ⟨n, key, data⟩]
    | _ => [.refused key]
  | .deleteName key => match delNameNode t key with
    | some (_, 0) => [.deleted key]
    | _ => [.absent key]
  | .deleteNode n => match t.nodes n with
    | some nn => [.deleted nn.nKey]
    | none => []

def avlMachine (δ : Type) : Machine (AvlTree δ) (AvlAction δ) (AvlEvent δ) where
  start := {}
  step := avlStep
  emits := avlSays

/-- What was last stored under the key and not deleted since. -/
def lastStored (key : Text) (log : List (AvlEvent δ)) : Option (AvlEntry δ) :=
  log.foldl (fun found ev => match ev with
    | .stored e => if key = e.key then some e else found
    | .deleted k => if key = k then none else found
    | _ => found) none

/-- A node that is to be deleted is one that there is. -/
def NodeThere (t : AvlTree δ) : AvlAction δ → Prop
  | .deleteNode n => (t.nodes n).isSome
  | _ => True

variable {tree tree' : AvlTree δ} {shape : AvlShape δ} {key : Text} {a : AvlAction δ}
  {log : List (AvlEvent δ)}

theorem AvlSound.start : AvlSound ({} : AvlTree δ) nil := by
  refine ⟨⟨?_, ?_, ?_⟩, rfl, trivial, List.Pairwise.nil, ?_⟩ <;>
    simp [sceneIds, AvlPiece.ids, AvlPiece.Holds, Linked, treeIds, inorder]

theorem AvlSound.makes (hs : AvlSound tree shape) :
    AvlSound { tree with made := tree.made + 1 } shape :=
  ⟨hs.stores, hs.root, hs.balanced, hs.ascending, fun i hi => Nat.lt_succ_of_lt (hs.made i hi)⟩

theorem lastStored_snoc (ev : AvlEvent δ) : lastStored key (log ++ [ev]) = match ev with
    | .stored e => if key = e.key then some e else lastStored key log
    | .deleted k => if key = k then none else lastStored key log
    | _ => lastStored key log := by
  rw [lastStored, List.foldl_append]
  rfl

/-- The tree stores what the log says. -/
def Agrees (shape : AvlShape δ) (log : List (AvlEvent δ)) : Prop :=
  ∀ k, entryOf (treeEntries shape) k = lastStored k log

theorem avlStep_spec (hs : AvlSound tree shape) (hlog : Agrees shape log) (hok : NodeThere tree a) :
    ∃ tree' shape', avlStep tree a = some tree' ∧ AvlSound tree' shape' ∧
      Agrees shape' (log ++ avlSays tree a) := by
  cases a with
  | store key data =>
    cases he : entryOf (treeEntries shape) key with
    | none =>
      obtain ⟨t', shape', hst, hs', hent⟩ := storeExposedNode_stores hs he data
      refine ⟨t', shape', by simp [avlStep, hst], hs', fun k => ?_⟩
      simp only [avlSays, hst, lastStored_snoc]
      rw [hent, hlog]
    | some e =>
      have hne : entryOf (treeEntries shape) key ≠ none := by simp [he]
      have hst := storeExposedNode_refuses hs hne data
      refine ⟨_, shape, by rw [avlStep, hst, Option.map_some], hs.makes, fun k => ?_⟩
      simp only [avlSays, hst, lastStored_snoc]
      exact hlog k
  | deleteName key =>
    cases he : entryOf (treeEntries shape) key with
    | none =>
      have hdel := delNameNode_absent hs he
      refine ⟨_, shape, by rw [avlStep, hdel, Option.map_some], hs, fun k => ?_⟩
      simp only [avlSays, hdel, lastStored_snoc]
      exact hlog k
    | some e =>
      obtain ⟨t', shape', hdel, hs', hent⟩ := delNameNode_spec hs he
      refine ⟨t', shape', by simp [avlStep, hdel], hs', fun k => ?_⟩
      simp only [avlSays, hdel, lastStored_snoc]
      rw [hent, hlog]
  | deleteNode i =>
    obtain ⟨p, x, l, r, rfl, rfl⟩ := hs.exists_plug hok
    obtain ⟨t', shape', hdel, hs', _, hent⟩ := delNode_spec hs
    have hn := hs.stores.root
    refine ⟨t', shape', by simp [avlStep, hdel], hs', fun k => ?_⟩
    simp only [avlSays, hn, lastStored_snoc]
    rw [hent, hlog]
    rfl

theorem avlMachine_inv (h : (avlMachine δ).Runs NodeThere tree log) :
    ∃ shape, AvlSound tree shape ∧ Agrees shape log := by
  refine h.invariant (fun t log => ∃ shape, AvlSound t shape ∧ Agrees shape log)
    ⟨nil, AvlSound.start, fun k => rfl⟩ ?_
  rintro t log a t' ⟨shape, hs, hlog⟩ hok hstep
  obtain ⟨t1, shape', hstep', hs', hlog'⟩ := avlStep_spec hs hlog hok
  have hsame : avlStep t a = some t' := hstep
  rw [hstep'] at hsame
  cases hsame
  exact ⟨shape', hs', hlog'⟩

def refusedOnce : AvlTree Nat :=
  (((avlMachine Nat).exec {} [.store [1] (some 7), .store [2] none, .store [1] (some 8)]).map (·.1)).getD {}

end

end Katcp
