import Katcp.AvlTree

namespace Katcp

section

open TreeZipper AvlNode BinaryTree

variable {δ : Type}

structure AvlEntry (δ : Type) where
  id : NodeId
  key : Text
  data : Option δ

/-- The tree that the links in memory describe, with the balance each node has stored. -/
abbrev AvlShape (δ : Type) := BinaryTree (AvlEntry δ × Int)

abbrev AvlPath (δ : Type) := List (Frame (AvlEntry δ × Int))

def rootId : AvlShape δ → Option NodeId
  | nil => none
  | node x _ _ => some x.1.id

def treeIds (t : AvlShape δ) : List NodeId := (inorder t).map (·.1.id)

/-- The record of a node in memory. -/
def nodeRecord (s : Hand) (up near far : Option NodeId) (x : AvlEntry δ × Int) : AvlNode δ :=
  match s with
  | .left => ⟨up, near, far, x.2, x.1.key, x.1.data⟩
  | .right => ⟨up, far, near, x.2, x.1.key, x.1.data⟩

/-- Each node of the tree is in memory, with the links the tree says. -/
def Linked (h : AvlHeap δ) : Option NodeId → AvlShape δ → Prop
  | _, nil => True
  | up, node x l r => h x.1.id = some (nodeRecord .left up (rootId l) (rootId r) x) ∧
      Linked h (some x.1.id) l ∧ Linked h (some x.1.id) r

/-- The node that what fills the hole of a path hangs under. -/
def upper (top : Option NodeId) : AvlPath δ → Option NodeId
  | [] => top
  | f :: _ => some f.entry.1.id

def pathIds (p : AvlPath δ) : List NodeId := p.flatMap fun f => f.entry.1.id :: treeIds f.sibling

def LinkedPath (h : AvlHeap δ) (top : Option NodeId) : Option NodeId → AvlPath δ → Prop
  | _, [] => True
  | hole, f :: above =>
      h f.entry.1.id = some (nodeRecord f.side (upper top above) hole (rootId f.sibling) f.entry) ∧
        Linked h (some f.entry.1.id) f.sibling ∧ LinkedPath h top (some f.entry.1.id) above

variable {h h' : AvlHeap δ} {p : AvlPath δ} {t near far : AvlShape δ} {x : AvlEntry δ × Int}
  {up top hole : Option NodeId} {s : Hand} {i : NodeId}

theorem rootId_join : rootId (join s x near far) = some x.1.id := by
  cases s <;> rfl

theorem linked_join : Linked h up (join s x near far) ↔
    h x.1.id = some (nodeRecord s up (rootId near) (rootId far) x) ∧
      Linked h (some x.1.id) near ∧ Linked h (some x.1.id) far := by
  cases s
  · rfl
  · simp only [join, Linked, nodeRecord]
    tauto

theorem treeIds_join : (treeIds (join s x near far)).Perm (x.1.id :: (treeIds near ++ treeIds far)) := by
  cases s <;> simp only [treeIds, join, inorder, List.map_append, List.map_cons]
  · exact List.perm_middle
  · exact List.perm_middle.trans (List.Perm.cons _ List.perm_append_comm)

theorem linked_plug : Linked h top (plug p t) ↔
    Linked h (upper top p) t ∧ LinkedPath h top (rootId t) p := by
  induction p generalizing t with
  | nil => simp [plug, LinkedPath, upper]
  | cons f p ih =>
    rw [plug, ih, Frame.fill, linked_join, rootId_join, LinkedPath, upper]
    tauto

theorem treeIds_plug : (treeIds (plug p t)).Perm (treeIds t ++ pathIds p) := by
  induction p generalizing t with
  | nil => simp [plug, pathIds]
  | cons f p ih =>
    have hf : (treeIds (f.fill t)).Perm (treeIds t ++ f.entry.1.id :: treeIds f.sibling) :=
      treeIds_join.trans List.perm_middle.symm
    simpa [plug, pathIds] using ih.trans (hf.append_right (pathIds p))

theorem Linked.congr (hl : Linked h up t) (hsame : ∀ i ∈ treeIds t, h' i = h i) : Linked h' up t := by
  induction t generalizing up with
  | nil => exact trivial
  | node x l r ihl ihr =>
    obtain ⟨hx, hl, hr⟩ := hl
    simp only [treeIds, inorder, List.map_append, List.map_cons, List.mem_append, List.mem_cons] at hsame
    refine ⟨?_, ihl hl fun i hi => hsame i (Or.inl hi), ihr hr fun i hi => hsame i (Or.inr (Or.inr hi))⟩
    rw [hsame _ (Or.inr (Or.inl rfl)), hx]

theorem LinkedPath.congr (hl : LinkedPath h top hole p) (hsame : ∀ i ∈ pathIds p, h' i = h i) :
    LinkedPath h' top hole p := by
  induction p generalizing hole with
  | nil => exact trivial
  | cons f p ih =>
    obtain ⟨hx, hs, hp⟩ := hl
    simp only [pathIds, List.flatMap_cons, List.cons_append, List.mem_cons, List.mem_append] at hsame
    refine ⟨?_, hs.congr fun i hi => hsame i (Or.inr (Or.inl hi)),
      ih hp fun i hi => hsame i (Or.inr (Or.inr hi))⟩
    rw [hsame _ (Or.inl rfl), hx]

theorem rootId_mem (hr : rootId t = some i) : i ∈ treeIds t := by
  cases t with
  | nil => cases hr
  | node x l r =>
    cases hr
    simp [treeIds, inorder]

theorem AvlHeap.edit_spec {n : AvlNode δ} (hi : h i = some n) (f : AvlNode δ → AvlNode δ) :
    ∃ h', h.edit i f = some h' ∧ h' i = some (f n) ∧ (∀ j, (h' j).isSome = (h j).isSome) ∧
      ∀ j, j ≠ i → h' j = h j := by
  refine ⟨_, by rw [AvlHeap.edit, hi, Option.map_some], Function.update_self .., ?_,
    fun j hj => Function.update_of_ne hj ..⟩
  intro j
  rw [Function.update_apply]
  split
  next he => simp [he, hi]
  next => rfl

/-- The root of a tree hangs elsewhere. -/
theorem Linked.reparent (hl : Linked h up t) (hnodup : (treeIds t).Nodup) (up' : Option NodeId) :
    ∃ h', h.editSome (rootId t) (setParent up') = some h' ∧ Linked h' up' t ∧
      (∀ i, (h' i).isSome = (h i).isSome) ∧ ∀ i, i ∉ treeIds t → h' i = h i := by
  cases t with
  | nil => exact ⟨h, rfl, trivial, fun i => rfl, fun i _ => rfl⟩
  | node x l r =>
    obtain ⟨hx, hl, hr⟩ := hl
    have hd := (treeIds_join (s := .left)).nodup hnodup
    rw [List.nodup_cons, List.mem_append, not_or] at hd
    obtain ⟨h', he, hx', hcells, hsame⟩ := AvlHeap.edit_spec hx (setParent up')
    refine ⟨h', he, ⟨hx', hl.congr ?_, hr.congr ?_⟩, hcells, ?_⟩
    · exact fun i hi => hsame i fun e => hd.1.1 (e ▸ hi)
    · exact fun i hi => hsame i fun e => hd.1.2 (e ▸ hi)
    · exact fun i hi => hsame i fun e => hi (rootId_mem (e ▸ rfl))

end

section

open TreeZipper AvlNode BinaryTree

variable {δ : Type}

/-- A part of memory: a node, a subtree under a node, or the nodes from a hole up to `top`. -/
inductive AvlPiece (δ : Type) where
  | node (i : NodeId) (n : AvlNode δ)
  | tree (up : Option NodeId) (t : AvlShape δ)
  | path (top hole : Option NodeId) (p : AvlPath δ)

namespace AvlPiece

def ids : AvlPiece δ → List NodeId
  | node i _ => [i]
  | tree _ t => treeIds t
  | path _ _ p => pathIds p

def Holds (h : AvlHeap δ) : AvlPiece δ → Prop
  | node i n => h i = some n
  | tree up t => Linked h up t
  | path top hole p => LinkedPath h top hole p

theorem Holds.congr {h h' : AvlHeap δ} {x : AvlPiece δ} (hx : x.Holds h)
    (hsame : ∀ i ∈ x.ids, h' i = h i) : x.Holds h' := by
  cases x with
  | node i n => exact (hsame i (List.mem_singleton_self i)).trans hx
  | tree up t => exact Linked.congr hx hsame
  | path top hole p => exact LinkedPath.congr hx hsame

end AvlPiece

open AvlPiece

def sceneIds (ps : List (AvlPiece δ)) : List NodeId := ps.flatMap ids

/-- Memory holds the pieces, which have no node in common, and nothing else. -/
structure Scene (h : AvlHeap δ) (ps : List (AvlPiece δ)) : Prop where
  holds : ∀ x ∈ ps, x.Holds h
  nodup : (sceneIds ps).Nodup
  cells : ∀ i, (h i).isSome ↔ i ∈ sceneIds ps

variable {h h' : AvlHeap δ} {ps qs as bs : List (AvlPiece δ)} {x : AvlPiece δ} {p : AvlPath δ}
  {t near far : AvlShape δ} {e : AvlEntry δ × Int} {n : AvlNode δ} {up top hole : Option NodeId}
  {s : Hand} {i a b : NodeId}

theorem sceneIds_append (ps qs : List (AvlPiece δ)) : sceneIds (ps ++ qs) = sceneIds ps ++ sceneIds qs :=
  List.flatMap_append ..

theorem Scene.perm (hs : Scene h ps) (hp : qs.Perm ps) : Scene h qs := by
  have hids : (sceneIds qs).Perm (sceneIds ps) := hp.flatMap_right ids
  exact ⟨fun x hx => hs.holds x (hp.mem_iff.mp hx), hids.symm.nodup hs.nodup,
    fun i => (hs.cells i).trans hids.mem_iff.symm⟩

theorem Scene.move (as : List (AvlPiece δ)) (hs : Scene h (x :: (as ++ bs))) : Scene h (as ++ x :: bs) :=
  hs.perm List.perm_middle

theorem Scene.front (as : List (AvlPiece δ)) (hs : Scene h (as ++ x :: bs)) : Scene h (x :: (as ++ bs)) :=
  hs.perm List.perm_middle.symm

/-- Some of the pieces change, and memory with them. -/
theorem Scene.replace (ps qs : List (AvlPiece δ)) (hs : Scene h (as ++ (ps ++ bs)))
    (hq : ∀ x ∈ qs, x.Holds h') (hnodup : (sceneIds qs).Nodup) (hsub : ∀ i ∈ sceneIds qs, i ∈ sceneIds ps)
    (hcells : ∀ i ∈ sceneIds ps, (h' i).isSome ↔ i ∈ sceneIds qs)
    (hsame : ∀ i, i ∉ sceneIds ps → h' i = h i) : Scene h' (as ++ (qs ++ bs)) := by
  have hnd := hs.nodup
  have hc := hs.cells
  simp only [sceneIds_append, List.nodup_append, List.mem_append] at hnd hc
  obtain ⟨ha, ⟨hp, hb, hpb⟩, hapb⟩ := hnd
  have hother : ∀ x ∈ as ++ bs, x.Holds h' := by
    intro x hx
    have hmem : x ∈ as ++ (ps ++ bs) := by
      rcases List.mem_append.mp hx with hx | hx <;> simp [hx]
    refine (hs.holds x hmem).congr fun i hi => hsame i fun hip => ?_
    rcases List.mem_append.mp hx with hx | hx
    · exact hapb i (List.mem_flatMap.mpr ⟨x, hx, hi⟩) i (Or.inl hip) rfl
    · exact hpb i hip i (List.mem_flatMap.mpr ⟨x, hx, hi⟩) rfl
  refine ⟨?_, ?_, ?_⟩
  · intro x hx
    rcases List.mem_append.mp hx with hx | hx
    · exact hother x (List.mem_append_left _ hx)
    rcases List.mem_append.mp hx with hx | hx
    · exact hq x hx
    · exact hother x (List.mem_append_right _ hx)
  · simp only [sceneIds_append, List.nodup_append, List.mem_append]
    refine ⟨ha, ⟨hnodup, hb, fun i hi j hj => hpb i (hsub i hi) j hj⟩, ?_⟩
    exact fun i hi j hj => hapb i hi j (hj.imp_left (hsub j))
  · intro i
    simp only [sceneIds_append, List.mem_append]
    by_cases hi : i ∈ sceneIds ps
    · rw [hcells i hi]
      refine ⟨fun h => Or.inr (Or.inl h), ?_⟩
      rintro (h1 | h1 | h1)
      · exact absurd rfl (hapb i h1 i (Or.inl hi))
      · exact h1
      · exact absurd rfl (hpb i hi i h1)
    · rw [hsame i hi, hc]
      have hq : i ∉ sceneIds qs := fun h => hi (hsub i h)
      tauto

/-- The same memory cut into other pieces. -/
theorem Scene.recut (ps qs : List (AvlPiece δ)) (hs : Scene h (as ++ (ps ++ bs)))
    (hids : (sceneIds qs).Perm (sceneIds ps)) (hq : ∀ x ∈ qs, x.Holds h) : Scene h (as ++ (qs ++ bs)) := by
  have hnd := hs.nodup
  simp only [sceneIds_append, List.nodup_append] at hnd
  refine hs.replace ps qs hq (hids.symm.nodup hnd.2.1.1) (fun i => hids.mem_iff.mp) ?_ fun i _ => rfl
  intro i hi
  refine ⟨fun _ => hids.mem_iff.mpr hi, fun _ => (hs.cells i).mpr ?_⟩
  simp [sceneIds_append, hi]

theorem Scene.nodup_piece (hs : Scene h (as ++ x :: bs)) : x.ids.Nodup := by
  have hnd := hs.nodup
  rw [sceneIds_append, List.nodup_append] at hnd
  have hx : (x.ids ++ sceneIds bs).Nodup := hnd.2.1
  exact (List.nodup_append.mp hx).1

theorem Scene.not_mem {y : AvlPiece δ} (hs : Scene h (as ++ x :: bs)) (hy : y ∈ as ++ bs)
    (hi : i ∈ y.ids) : i ∉ x.ids := by
  have hx : (x.ids ++ sceneIds (as ++ bs)).Nodup := (hs.perm List.perm_middle.symm).nodup
  intro hix
  exact (List.nodup_append.mp hx).2.2 i hix i (List.mem_flatMap.mpr ⟨y, hy, hi⟩) rfl

theorem Scene.off_path (as : List (AvlPiece δ)) (hs : Scene h (as ++ path top hole p :: bs))
    (hi : node i n ∈ as) : i ∉ pathIds p :=
  hs.not_mem (List.mem_append_left _ hi) (List.mem_singleton_self i)

theorem Scene.edit (as : List (AvlPiece δ)) (hs : Scene h (as ++ node i n :: bs))
    (f : AvlNode δ → AvlNode δ) : ∃ h', h.edit i f = some h' ∧ Scene h' (as ++ node i (f n) :: bs) := by
  have hi : h i = some n := hs.holds (node i n) (by simp)
  obtain ⟨h', he, hi', hcells, hsame⟩ := AvlHeap.edit_spec hi f
  refine ⟨h', he, Scene.replace [node i n] [node i (f n)] hs ?_ ?_ ?_ ?_ ?_⟩
  · simpa [AvlPiece.Holds] using hi'
  · simp [sceneIds, AvlPiece.ids]
  · simp [sceneIds, AvlPiece.ids]
  · simp [sceneIds, AvlPiece.ids, hi']
  · simpa [sceneIds, AvlPiece.ids] using hsame

theorem Scene.reparent (as : List (AvlPiece δ)) (hs : Scene h (as ++ tree up t :: bs))
    (up' : Option NodeId) : ∃ h', h.editSome (rootId t) (setParent up') = some h' ∧
      Scene h' (as ++ tree up' t :: bs) := by
  have ht : Linked h up t := hs.holds (tree up t) (by simp)
  obtain ⟨h', he, ht', hcells, hsame⟩ := ht.reparent hs.nodup_piece up'
  refine ⟨h', he, Scene.replace [tree up t] [tree up' t] hs ?_ ?_ ?_ ?_ ?_⟩
  · simpa [AvlPiece.Holds] using ht'
  · simpa [sceneIds, AvlPiece.ids] using hs.nodup_piece
  · simp [sceneIds, AvlPiece.ids]
  · intro i hi
    rw [hcells, hs.cells, sceneIds_append]
    simp only [sceneIds, AvlPiece.ids, List.flatMap_cons, List.mem_append, List.flatMap_nil,
      List.append_nil] at hi ⊢
    tauto
  · simpa [sceneIds, AvlPiece.ids] using hsame

theorem Scene.free (as : List (AvlPiece δ)) (hs : Scene h (as ++ node i n :: bs)) :
    ∃ h', h.free i = some h' ∧ Scene h' (as ++ bs) := by
  have hi : h i = some n := hs.holds (node i n) (by simp)
  refine ⟨_, by rw [AvlHeap.free, hi, Option.map_some], Scene.replace [node i n] [] hs ?_ ?_ ?_ ?_ ?_⟩
  · simp
  · simp [sceneIds]
  · simp [sceneIds]
  · simp [sceneIds, AvlPiece.ids]
  · intro j hj
    exact Function.update_of_ne (by simpa [sceneIds, AvlPiece.ids] using hj) ..

/-- A subtree seen as its root and the two subtrees under it. -/
theorem Scene.split (as : List (AvlPiece δ)) (hs : Scene h (as ++ tree up (join s e near far) :: bs)) :
    Scene h (as ++ node e.1.id (nodeRecord s up (rootId near) (rootId far) e) ::
      tree (some e.1.id) near :: tree (some e.1.id) far :: bs) := by
  have ht : Linked h up (join s e near far) := hs.holds (tree up (join s e near far)) (by simp)
  obtain ⟨he, hn, hf⟩ := linked_join.mp ht
  refine Scene.recut [tree up (join s e near far)] [_, _, _] hs ?_ ?_
  · simpa [sceneIds, AvlPiece.ids] using treeIds_join.symm
  · simp [AvlPiece.Holds, he, hn, hf]

theorem Scene.merge (as : List (AvlPiece δ)) (hs : Scene h (as ++
    node e.1.id (nodeRecord s up (rootId near) (rootId far) e) ::
      tree (some e.1.id) near :: tree (some e.1.id) far :: bs)) :
    Scene h (as ++ tree up (join s e near far) :: bs) := by
  refine Scene.recut [_, _, _] [tree up (join s e near far)] hs ?_ ?_
  · simpa [sceneIds, AvlPiece.ids] using treeIds_join
  · have he := hs.holds _ (List.mem_append_right _ (List.mem_cons_self ..))
    have hn := hs.holds (tree (some e.1.id) near) (by simp)
    have hf := hs.holds (tree (some e.1.id) far) (by simp)
    simpa [AvlPiece.Holds] using linked_join.mpr ⟨he, hn, hf⟩

/-- A tree seen as a subtree and the path above it. -/
theorem Scene.zoom (as : List (AvlPiece δ)) (hs : Scene h (as ++ tree top (plug p t) :: bs)) :
    Scene h (as ++ tree (upper top p) t :: path top (rootId t) p :: bs) := by
  have ht : Linked h top (plug p t) := hs.holds (tree top (plug p t)) (by simp)
  refine Scene.recut [tree top (plug p t)] [_, _] hs ?_ ?_
  · simpa [sceneIds, AvlPiece.ids] using treeIds_plug.symm
  · simpa [AvlPiece.Holds] using linked_plug.mp ht

theorem Scene.unzoom (as : List (AvlPiece δ)) (hs : Scene h (as ++ tree (upper top p) t ::
    path top (rootId t) p :: bs)) : Scene h (as ++ tree top (plug p t) :: bs) := by
  refine Scene.recut [_, _] [tree top (plug p t)] hs ?_ ?_
  · simpa [sceneIds, AvlPiece.ids] using treeIds_plug
  · have ht := hs.holds (tree (upper top p) t) (by simp)
    have hp := hs.holds (path top (rootId t) p) (by simp)
    simpa [AvlPiece.Holds] using linked_plug.mpr ⟨ht, hp⟩

theorem Scene.setHole {f : Frame (AvlEntry δ × Int)} (as : List (AvlPiece δ))
    (hs : Scene h (as ++ path top hole (f :: p) :: bs)) (hole' : Option NodeId) :
    ∃ h', h.edit f.entry.1.id (setChild f.side hole') = some h' ∧
      Scene h' (as ++ path top hole' (f :: p) :: bs) := by
  obtain ⟨hx, hsib, hp⟩ : LinkedPath h top hole (f :: p) :=
    hs.holds (path top hole (f :: p)) (by simp)
  obtain ⟨h', he, hx', hcells, hsame⟩ := AvlHeap.edit_spec hx (setChild f.side hole')
  have hnd : (f.entry.1.id :: (treeIds f.sibling ++ pathIds p)).Nodup := hs.nodup_piece
  have hids : sceneIds [path top hole' (f :: p)] = pathIds (f :: p) := by simp [sceneIds, AvlPiece.ids]
  have hids' : sceneIds [path top hole (f :: p)] = pathIds (f :: p) := by simp [sceneIds, AvlPiece.ids]
  have hout := (List.nodup_cons.mp hnd).1
  simp only [List.mem_append, not_or] at hout
  refine ⟨h', he, Scene.replace [path top hole (f :: p)] [path top hole' (f :: p)] hs ?_ ?_ ?_ ?_ ?_⟩
  · simp only [List.mem_singleton, forall_eq]
    refine ⟨?_, hsib.congr fun i hi => hsame i ?_, hp.congr fun i hi => hsame i ?_⟩
    · rw [hx']
      cases f.side <;> rfl
    · rintro rfl
      exact hout.1 hi
    · rintro rfl
      exact hout.2 hi
  · rw [hids]
    exact hnd
  · rw [hids, hids']
    exact fun i hi => hi
  · intro i hi
    rw [hcells, hs.cells, sceneIds_append, hids]
    rw [hids'] at hi
    exact ⟨fun _ => hi, fun _ => by simp [sceneIds, AvlPiece.ids, hi]⟩
  · intro i hi
    refine hsame i ?_
    rintro rfl
    exact hi (by simp [hids', pathIds])

/-- A node that is not on the way is not the child on the other side of it. -/
theorem sibling_ne (ha : a ∉ pathIds (f :: p)) : rootId f.sibling ≠ some a := by
  intro hr
  exact ha (by simp [pathIds, rootId_mem hr])

/-- What hangs in the hole is another node now. -/
theorem Scene.relink (as : List (AvlPiece δ)) (hs : Scene h (as ++ path none (some a) p :: bs))
    (ha : a ∉ pathIds p) (b : NodeId) : ∃ h', Katcp.relink h (upper none p) a b = some h' ∧
      Scene h' (as ++ path none (some b) p :: bs) := by
  cases p with
  | nil => exact ⟨h, rfl, hs.recut [_] [path none (some b) []] (by simp [sceneIds, AvlPiece.ids])
      (by simp [AvlPiece.Holds, LinkedPath])⟩
  | cons f p =>
    obtain ⟨h', he, hs'⟩ := hs.setHole as (some b)
    have hx := (hs.holds (path none (some a) (f :: p)) (by simp)).1
    have hsib := sibling_ne ha
    refine ⟨h', ?_, hs'⟩
    rw [← he]
    simp only [Katcp.relink, upper, hx, Option.bind_eq_bind, Option.bind_some]
    cases hside : f.side with
    | left => exact if_neg hsib
    | right => exact if_pos rfl

theorem Scene.replaceChild (as : List (AvlPiece δ)) (hs : Scene h (as ++ path none (some a) p :: bs))
    (ha : a ∉ pathIds p) (c : Option NodeId) : ∃ h', Katcp.replaceChild h (upper none p) a c = some h' ∧
      Scene h' (as ++ path none c p :: bs) := by
  cases p with
  | nil => exact ⟨h, rfl, hs.recut [_] [path none c []] (by simp [sceneIds, AvlPiece.ids])
      (by simp [AvlPiece.Holds, LinkedPath])⟩
  | cons f p =>
    obtain ⟨h', he, hs'⟩ := hs.setHole as c
    have hx := (hs.holds (path none (some a) (f :: p)) (by simp)).1
    have hsib := sibling_ne ha
    refine ⟨h', ?_, hs'⟩
    rw [← he]
    simp only [Katcp.replaceChild, upper, hx, Option.bind_eq_bind, Option.bind_some]
    cases hside : f.side with
    | left => exact if_pos rfl
    | right => exact (if_neg hsib).trans (if_pos rfl)

/-- Memory holds the tree and nothing else. -/
def Stores (h : AvlHeap δ) (t : AvlShape δ) : Prop := Scene h [tree none t]

end

section

open TreeZipper AvlNode BinaryTree AvlPiece

variable {δ : Type} {h : AvlHeap δ} {p : AvlPath δ} {t t1 t2 t3 t4 : AvlShape δ}
  {a b c : AvlEntry δ × Int} {up near far : Option NodeId} {s : Hand}

section Record

@[simp] theorem nodeRecord_child (e : AvlEntry δ × Int) : (nodeRecord s up near far e).child s = near := by
  cases s <;> rfl

@[simp] theorem nodeRecord_other (e : AvlEntry δ × Int) :
    (nodeRecord s up near far e).child s.other = far := by
  cases s <;> rfl

@[simp] theorem nodeRecord_setChild (e : AvlEntry δ × Int) (i : Option NodeId) :
    (nodeRecord s up near far e).setChild s i = nodeRecord s up i far e := by
  cases s <;> rfl

@[simp] theorem nodeRecord_setOther (e : AvlEntry δ × Int) (i : Option NodeId) :
    (nodeRecord s up near far e).setChild s.other i = nodeRecord s up near i e := by
  cases s <;> rfl

@[simp] theorem nodeRecord_parent (e : AvlEntry δ × Int) : (nodeRecord s up near far e).nParent = up := by
  cases s <;> rfl

@[simp] theorem nodeRecord_setParent (e : AvlEntry δ × Int) (i : Option NodeId) :
    (nodeRecord s up near far e).setParent i = nodeRecord s i near far e := by
  cases s <;> rfl

@[simp] theorem nodeRecord_balance (e : AvlEntry δ × Int) : (nodeRecord s up near far e).nBalance = e.2 := by
  cases s <;> rfl

@[simp] theorem nodeRecord_setBalance (e : AvlEntry δ × Int) (d : Int) :
    (nodeRecord s up near far e).setBalance d = nodeRecord s up near far (e.1, d) := by
  cases s <;> rfl

@[simp] theorem nodeRecord_tilt (e : AvlEntry δ × Int) (d : Int) :
    (nodeRecord s up near far e).tilt d = nodeRecord s up near far (e.1, e.2 + d) := by
  cases s <;> rfl

end Record

/-- The root of a subtree, and memory cut up around it. -/
theorem Stores.split (hs : Stores h (plug p (join s a t1 t2))) :
    Scene h [node a.1.id (nodeRecord s (upper none p) (rootId t1) (rootId t2) a),
      tree (some a.1.id) t1, tree (some a.1.id) t2, path none (some a.1.id) p] := by
  have hz := Scene.split [] (Scene.zoom [] hs)
  rwa [rootId_join] at hz

theorem Stores.merge (hs : Scene h [node a.1.id (nodeRecord s (upper none p) (rootId t1) (rootId t2) a),
      tree (some a.1.id) t1, tree (some a.1.id) t2, path none (some a.1.id) p]) :
    Stores h (plug p (join s a t1 t2)) := by
  have hm := Scene.merge [] hs
  refine Scene.unzoom [] ?_
  rwa [rootId_join]

theorem rotateSame_spec (hs : Stores h (plug p (join s a (join s b t1 t2) t3))) :
    ∃ h', rotateSame s h a.1.id = some (h', b.1.id) ∧
      Stores h' (plug p (join s (b.1, if b.2 = 0 then -s.sign else 0) t1
        (join s (a.1, if b.2 = 0 then s.sign else 0) t2 t3))) := by
  have h0 := Scene.split [_] hs.split
  rw [rootId_join] at h0
  have ha := h0.holds _ (List.mem_cons_self ..)
  have hb := h0.holds _ (List.mem_cons_of_mem _ (List.mem_cons_self ..))
  obtain ⟨h1, e1, s1⟩ := Scene.edit [] h0 (setChild s (rootId t2))
  obtain ⟨h2, e2, s2⟩ := Scene.reparent [_, _, _] s1 (some a.1.id)
  obtain ⟨h3, e3, s3⟩ := Scene.edit [_] s2 (setChild s.other (some a.1.id))
  obtain ⟨h4, e4, s4⟩ := Scene.edit [] s3 (setParent (some b.1.id))
  obtain ⟨h5, e5, s5⟩ := Scene.edit [_] s4 (setParent (upper none p))
  obtain ⟨h6, e6, s6⟩ := Scene.relink [_, _, _, _, _] s5
    (Scene.off_path [_, _, _, _, _] s5 (List.mem_cons_self ..)) b.1.id
  obtain ⟨h7, e7, s7⟩ := Scene.edit [] s6 (setBalance (if b.2 = 0 then s.sign else 0))
  obtain ⟨h8, e8, s8⟩ := Scene.edit [_] s7 (setBalance (if b.2 = 0 then -s.sign else 0))
  simp only [nodeRecord_setChild, nodeRecord_setOther, nodeRecord_setParent, nodeRecord_setBalance] at s8
  refine ⟨h8, ?_, ?_⟩
  · simp only [rotateSame, Option.bind_eq_bind, Option.bind_eq_some_iff]
    refine ⟨_, ha, b.1.id, nodeRecord_child a, _, hb, h1, ?_, h2, ?_, h3, e3, h4, e4, h5, ?_, h6, ?_, ?_⟩
    · simpa using e1
    · simpa using e2
    · simpa using e5
    · simpa using e6
    · rw [nodeRecord_balance]
      split
      next hz => simp [hz] at e7 e8; simp [e7, e8]
      next hz => simp [hz] at e7 e8; simp [e7, e8]
  · refine Stores.merge ?_
    rw [rootId_join]
    exact Scene.merge (e := (a.1, _)) [_, _] (Scene.move [_, _] s8)

theorem rotateBetween_spec {q r : AvlEntry δ × Int} {uq ur uc u2 u3 xq xr : Option NodeId} {i j : NodeId}
    (hij : i = r.1.id ∧ j = q.1.id ∧ ur = upper none p ∨ i = q.1.id ∧ j = r.1.id ∧ uq = upper none p)
    (hc : c.2.natAbs ≤ 1)
    (hs : Scene h [node q.1.id (nodeRecord .left uq (rootId t1) xq q),
      node c.1.id (nodeRecord .left uc (rootId t2) (rootId t3) c),
      node r.1.id (nodeRecord .left ur xr (rootId t4) r), tree (some q.1.id) t1, tree u2 t2, tree u3 t3,
      tree (some r.1.id) t4, path none (some i) p]) :
    ∃ h', rotateBetween h i j c.1.id q.1.id r.1.id = some (h', c.1.id) ∧
      Stores h' (plug p (join .left (c.1, 0) (join .left (q.1, if c.2 = 1 then -1 else 0) t1 t2)
        (join .left (r.1, if c.2 = -1 then 1 else 0) t3 t4))) := by
  have hq := hs.holds _ (List.mem_cons_self ..)
  have hcn := hs.holds _ (List.mem_cons_of_mem _ (List.mem_cons_self ..))
  have hr := hs.holds _ (List.mem_cons_of_mem _ (List.mem_cons_of_mem _ (List.mem_cons_self ..)))
  obtain ⟨h1, e1, s1⟩ := Scene.edit [_, _] hs (setChild .left (rootId t3))
  obtain ⟨h2, e2, s2⟩ := Scene.reparent [_, _, _, _, _] s1 (some r.1.id)
  obtain ⟨h3, e3, s3⟩ := Scene.edit [] s2 (setChild .right (rootId t2))
  obtain ⟨h4, e4, s4⟩ := Scene.reparent [_, _, _, _] s3 (some q.1.id)
  obtain ⟨h5, e5, s5⟩ := Scene.edit [_] s4 (setChild .right (some r.1.id))
  obtain ⟨h6, e6, s6⟩ := Scene.edit [_] s5 (setChild .left (some q.1.id))
  obtain ⟨h7, h8, e7, e8, s8⟩ : ∃ h7 h8, h6.edit j (setParent (some c.1.id)) = some h7 ∧
      h7.edit i (setParent (some c.1.id)) = some h8 ∧
      Scene h8 [node q.1.id (nodeRecord .left (some c.1.id) (rootId t1) (rootId t2) q),
        node c.1.id (nodeRecord .left uc (some q.1.id) (some r.1.id) c),
        node r.1.id (nodeRecord .left (some c.1.id) (rootId t3) (rootId t4) r), tree (some q.1.id) t1,
        tree (some q.1.id) t2, tree (some r.1.id) t3, tree (some r.1.id) t4, path none (some i) p] := by
    rcases hij with ⟨rfl, rfl, _⟩ | ⟨rfl, rfl, _⟩
    · obtain ⟨h7, e7, s7⟩ := Scene.edit [] s6 (setParent (some c.1.id))
      obtain ⟨h8, e8, s8⟩ := Scene.edit [_, _] s7 (setParent (some c.1.id))
      exact ⟨h7, h8, e7, e8, s8⟩
    · obtain ⟨h7, e7, s7⟩ := Scene.edit [_, _] s6 (setParent (some c.1.id))
      obtain ⟨h8, e8, s8⟩ := Scene.edit [] s7 (setParent (some c.1.id))
      exact ⟨h7, h8, e7, e8, s8⟩
  obtain ⟨h9, e9, s9⟩ := Scene.edit [_] s8 (setParent (upper none p))
  have hoff : i ∉ pathIds p := by
    rcases hij with ⟨rfl, _, _⟩ | ⟨rfl, _, _⟩
    · exact Scene.off_path [_, _, _, _, _, _, _] s9 (List.mem_cons_of_mem _ (List.mem_cons_of_mem _
        (List.mem_cons_self ..)))
    · exact Scene.off_path [_, _, _, _, _, _, _] s9 (List.mem_cons_self ..)
  obtain ⟨h10, e10, s10⟩ := Scene.relink [_, _, _, _, _, _, _] s9 hoff c.1.id
  obtain ⟨h11, e11, s11⟩ := Scene.edit [_, _] s10 (setBalance (if c.2 = -1 then 1 else 0))
  obtain ⟨h12, e12, s12⟩ := Scene.edit [] s11 (setBalance (if c.2 = 1 then -1 else 0))
  obtain ⟨h13, e13, s13⟩ := Scene.edit [_] s12 (setBalance 0)
  have hi : ∃ n, h i = some n ∧ n.nParent = upper none p := by
    rcases hij with ⟨rfl, _, rfl⟩ | ⟨rfl, _, rfl⟩
    · exact ⟨_, hr, rfl⟩
    · exact ⟨_, hq, rfl⟩
  obtain ⟨n, hi, hn⟩ := hi
  refine ⟨h13, ?_, ?_⟩
  · simp only [rotateBetween, Option.bind_eq_bind, Option.bind_eq_some_iff]
    refine ⟨n, hi, _, hcn, h1, e1, h2, e2, h3, e3, h4, e4, h5, e5, h6, e6, h7, e7, h8, e8, h9, hn ▸ e9, h10,
      hn ▸ e10, ?_⟩
    have hbal : c.2 = 0 ∨ c.2 = -1 ∨ c.2 = 1 := by omega
    rcases hbal with hz | hz | hz <;> simp [hz] at e11 e12 ⊢ <;> simp [e11, e12, e13]
  · refine Stores.merge ?_
    rw [rootId_join, rootId_join]
    have s14 := Scene.front [_] (Scene.move [_, _, _, _] (Scene.front [_, _] s13))
    exact Scene.merge (e := (q.1, _)) [_] (Scene.merge (e := (r.1, _)) [_, _, _, _] s14)

theorem rotateLeftRight_spec (hc : c.2.natAbs ≤ 1)
    (hs : Stores h (plug p (join .left a (join .right b (join .left c t2 t3) t1) t4))) :
    ∃ h', rotateLeftRight h a.1.id = some (h', c.1.id) ∧
      Stores h' (plug p (join .left (c.1, 0) (join .left (b.1, if c.2 = 1 then -1 else 0) t1 t2)
        (join .left (a.1, if c.2 = -1 then 1 else 0) t3 t4))) := by
  have h0 : Scene h [_, node b.1.id (nodeRecord .left (some a.1.id) (rootId t1) (some c.1.id) b),
      tree (some b.1.id) t1, tree (some b.1.id) (join .left c t2 t3), tree (some a.1.id) t4, _] :=
    Scene.split (s := .left) [_] hs.split
  have h1 := Scene.split [_, _, _] h0
  have ha := h1.holds _ (List.mem_cons_self ..)
  have hb := h1.holds _ (List.mem_cons_of_mem _ (List.mem_cons_self ..))
  obtain ⟨h', he, hs'⟩ := rotateBetween_spec (Or.inl ⟨rfl, rfl, rfl⟩) hc
    (Scene.front [_, _] (Scene.front [_, _, _] h1))
  refine ⟨h', ?_, hs'⟩
  simp only [rotateLeftRight, Option.bind_eq_bind, Option.bind_eq_some_iff]
  exact ⟨_, ha, _, rfl, _, hb, _, rfl, he⟩

theorem rotateRightLeft_spec (hc : c.2.natAbs ≤ 1)
    (hs : Stores h (plug p (join .right a (join .left b (join .left c t2 t3) t4) t1))) :
    ∃ h', rotateRightLeft h a.1.id = some (h', c.1.id) ∧
      Stores h' (plug p (join .left (c.1, 0) (join .left (a.1, if c.2 = 1 then -1 else 0) t1 t2)
        (join .left (b.1, if c.2 = -1 then 1 else 0) t3 t4))) := by
  have hsplit : Scene h [_, _, tree (some a.1.id) (join .left b (join .left c t2 t3) t4), _] :=
    Stores.split (s := .left) hs
  have h0 : Scene h [node a.1.id (nodeRecord .left (upper none p) (rootId t1) (some b.1.id) a),
      tree (some a.1.id) t1, node b.1.id (nodeRecord .left (some a.1.id) (some c.1.id) (rootId t4) b),
      tree (some b.1.id) (join .left c t2 t3), tree (some b.1.id) t4, _] :=
    Scene.split (s := .left) [_, _] hsplit
  have h1 := Scene.split [_, _, _] h0
  have ha := h1.holds _ (List.mem_cons_self ..)
  have hb := h1.holds _ (List.mem_cons_of_mem _ (List.mem_cons_of_mem _ (List.mem_cons_self ..)))
  obtain ⟨h', he, hs'⟩ := rotateBetween_spec (Or.inr ⟨rfl, rfl, rfl⟩) hc
    (Scene.front [_, _] (Scene.front [_, _, _] (Scene.front [_, _] h1)))
  refine ⟨h', ?_, hs'⟩
  simp only [rotateRightLeft, Option.bind_eq_bind, Option.bind_eq_some_iff]
  exact ⟨_, ha, _, rfl, _, hb, _, rfl, he⟩

end

end Katcp
