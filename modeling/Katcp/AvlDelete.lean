import Katcp.AvlInsert
import Mathlib.Data.List.Perm.Subperm

namespace Katcp

section

open TreeZipper AvlNode BinaryTree AvlPiece

variable {δ : Type} {h : AvlHeap δ} {p q above : AvlPath δ} {t l r near far whole : AvlShape δ}
  {a c e x : AvlEntry δ × Int} {s : Hand} {i : NodeId} {n fuel : Nat} {es : List (AvlEntry δ)}
  {f : Frame (AvlEntry δ × Int)} {cut : Cut δ}

/-- After the cut the loop leaves a balanced tree that stores the entries. -/
def Finishes (fuel : Nat) (cut : Cut δ) (es : List (AvlEntry δ)) : Prop :=
  ∃ h' t', finishCut fuel cut = some (h', rootId t') ∧ Stores h' t' ∧ Balanced t' ∧ treeEntries t' = es

theorem AvlSettles.finishes {flag : Bool} (hs : AvlSettles fuel h i flag whole) (he : treeEntries whole = es) :
    Finishes fuel ⟨h, some i, true, flag⟩ es := by
  obtain ⟨h', c', t', hset, hst, hr, hb, hent⟩ := hs
  refine ⟨h', t', ?_, hst, hb, hent.trans he⟩
  simp [finishCut, hset, hr]

/-- A root without a right child: its left subtree is the tree. -/
theorem cutLow_root (hs : Stores h (join .left e l nil)) (hb : Balanced l) :
    ∃ cut, cutLow h e.1.id = some cut ∧ Finishes fuel cut (treeEntries l) := by
  have h0 := Stores.split (p := []) hs
  have hn : h e.1.id = some _ := h0.holds _ (List.mem_cons_self ..)
  obtain ⟨h1, e1, s1⟩ := Scene.reparent [_] h0 none
  obtain ⟨h2, e2, s2⟩ := Scene.free [] s1
  have hl : Stores h2 l := by
    have s3 : Scene h2 ([tree none l] ++ ([_] ++ [])) := Scene.dropNil [_] s2
    exact s3.recut [_] [] (by simp [sceneIds, AvlPiece.ids, pathIds]) (by simp)
  refine ⟨⟨h2, rootId l, false, false⟩, ?_, h2, l, ?_, hl, hb, rfl⟩
  · simp [cutLow, hn, nodeRecord, upper, e1, e2]
  · cases hr : rootId l <;> simp [finishCut]

theorem cutLow_spec (hs : Stores h (plug (f :: above) (join .left e l nil)))
    (hb : Balanced (plug (f :: above) (join .left e l nil))) (hfuel : 2 * above.length + 2 < fuel) :
    ∃ cut, cutLow h e.1.id = some cut ∧ Finishes fuel cut (treeEntries (plug (f :: above) l)) := by
  obtain ⟨hbal, hpath⟩ := (balanced_plug _ _).mp hb
  have h0 := Scene.split [_] (Stores.split (s := f.side) hs)
  rw [rootId_join] at h0
  have hf : h f.entry.1.id = some _ := h0.holds _ (List.mem_cons_self ..)
  have hn : h e.1.id = some _ := h0.holds _ (List.mem_cons_of_mem _ (List.mem_cons_self ..))
  have hsib : rootId f.sibling ≠ some e.1.id := Stores.beside (f := f) hs rfl
  obtain ⟨h1, e1, s1⟩ := Scene.edit [] h0 (setChild f.side (rootId l))
  obtain ⟨h2, e2, s2⟩ := Scene.edit [] s1 (AvlNode.tilt (-f.side.sign))
  obtain ⟨h3, e3, s3⟩ := Scene.reparent [_, _] s2 (some f.entry.1.id)
  obtain ⟨h4, e4, s4⟩ := Scene.free [_] s3
  rw [nodeRecord_setChild, nodeRecord_tilt] at s4
  have s5 : Stores h4 (plug above (join f.side (f.entry.1, f.entry.2 - f.side.sign) l f.sibling)) :=
    Stores.merge (Scene.dropNil [_, _] s4)
  have hheight : (join .left e l nil).height = l.height + 1 := by simp [height_join]
  rw [hheight] at hpath
  have hend := settle_ascend s5 hbal.2.2.1 rfl hpath (settle_low above _ hpath.2.2.2) hfuel
  refine ⟨⟨h4, some f.entry.1.id, true, decide (f.entry.2 = 0)⟩, ?_,
    hend.finishes (treeEntries_plug_congr (p := above) (treeEntries_join_fst ..))⟩
  simp only [cutLow, hn, Option.bind_eq_bind, Option.bind_some]
  cases hside : f.side with
  | left =>
    rw [hside] at hf e1 e2
    have e2' : h1.edit f.entry.1.id (AvlNode.tilt 1) = some h2 := e2
    simp [nodeRecord, upper, hf, e1, e2', e3, e4]
  | right =>
    rw [hside] at hf e1 e2
    have e2' : h1.edit f.entry.1.id (AvlNode.tilt (-1)) = some h2 := e2
    simp [nodeRecord, upper, hf, hsib, e1, e2', e3, e4]

/-- The right child, which has no left child, takes the place of its parent. -/
theorem cutNext_spec (hs : Stores h (plug p (join .left e l (join .left c nil r))))
    (hb : Balanced (plug p (join .left e l (join .left c nil r)))) (hfuel : 2 * p.length + 2 < fuel) :
    ∃ cut, cutNext h e.1.id c.1.id = some cut ∧
      Finishes fuel cut (treeEntries (plug p (join .left c l r))) := by
  obtain ⟨hbal, hpath⟩ := (balanced_plug _ _).mp hb
  have h0 := Scene.split (s := .left) [_, _] (Stores.split (s := .left) hs)
  rw [rootId_join] at h0
  have hn : h e.1.id = some _ := h0.holds _ (List.mem_cons_self ..)
  obtain ⟨h1, e1, s1⟩ := Scene.edit [_, _] h0 (setParent (upper none p))
  obtain ⟨h2, e2, s2⟩ := Scene.replaceChild [_, _, _, _, _] s1
    (Scene.off_path [_, _, _, _, _] s1 (List.mem_cons_self ..)) (some c.1.id)
  obtain ⟨h3, e3, s3⟩ := Scene.edit [_, _] s2 (setChild .left (rootId l))
  obtain ⟨h4, e4, s4⟩ := Scene.reparent [_] s3 (some c.1.id)
  obtain ⟨h5, e5, s5⟩ := Scene.edit [_, _] s4 (setBalance e.2)
  obtain ⟨h6, e6, s6⟩ := Scene.free [] s5
  obtain ⟨h7, e7, s7⟩ := Scene.edit [_] s6 (AvlNode.tilt (-1))
  simp only [nodeRecord_setChild, nodeRecord_setParent, nodeRecord_setBalance, nodeRecord_tilt] at s7
  have s8 : Stores h7 (plug p (join .left (c.1, e.2 - 1) l r)) := by
    have := Scene.dropNil [_, _] s7
    exact Stores.merge (Scene.front [_] this)
  refine ⟨⟨h7, some c.1.id, true, (upper none p).isSome && decide (e.2 = 0)⟩, ?_, ?_⟩
  · simp only [cutNext, hn, Option.bind_eq_bind, Option.bind_some, Option.bind_eq_some_iff]
    exact ⟨h1, e1, h2, e2, h3, e3, h4, e4, h5, e5, h6, e6, h7, e7, rfl⟩
  refine AvlSettles.finishes ?_ (treeEntries_plug_congr (treeEntries_join_fst (s := .left) c.1 (e.2 - 1) c.2 l r))
  obtain ⟨hd, hle, hl, hc⟩ := balanced_join.mp hbal
  obtain ⟨hcd, hcle, -, hr⟩ := balanced_join.mp hc
  simp only [height_join, height, Nat.zero_max, Hand.sign] at hd hpath
  have hroot : rootId (join .left (c.1, e.2 - 1) l r) = some c.1.id := rfl
  have hnew : (e.2 - 1).natAbs ≤ 1 → Balanced (join .left (c.1, e.2 - 1) l r) := fun hle' =>
    balanced_join.mpr ⟨by simp only [Hand.sign]; omega, hle', hl, hr⟩
  have hheight := height_join .left (c.1, e.2 - 1) l r
  by_cases hz : e.2 = 0
  · cases p with
    | nil => exact settle_low [] _ trivial fuel _ _ _ s8 hroot (hnew (by omega)) rfl (by omega)
    | cons f above =>
      rw [decide_eq_true hz]
      refine settle_flagged s8 hroot ((balanced_plug _ _).mpr ⟨hnew (by omega), ?_⟩) (by omega)
      rwa [hheight, show max l.height r.height = max l.height (r.height + 1) by omega]
  rw [decide_eq_false hz, Bool.and_false]
  by_cases hone : e.2 = 1
  · exact settle_low p _ hpath fuel _ _ _ s8 hroot (hnew (by omega)) (by omega) (by omega)
  · obtain ⟨fuel, rfl⟩ := Nat.exists_eq_succ_of_ne_zero (Nat.ne_zero_of_lt hfuel)
    have hmax : max l.height (r.height + 1) + 1 = l.height + 1 := by omega
    refine settle_heavy s8 (by simp only [Hand.sign]; omega) hl hr (by omega) (hmax ▸ hpath) (by omega) ?_
    intro h' t' c' hs' hr' hb' hh'
    exact settle_low p _ (hmax ▸ hpath) fuel h' t' c' hs' hr' hb' (by omega) (by omega)

end

section

open TreeZipper AvlNode BinaryTree AvlPiece

variable {δ : Type} {h : AvlHeap δ} {p q : AvlPath δ} {t l r : AvlShape δ}
  {e x : AvlEntry δ × Int} {up : Option NodeId} {n fuel : Nat} {es : List (AvlEntry δ)}
  {f : Frame (AvlEntry δ × Int)} {y : AvlEntry δ}

/-- Going left from the root of `t`, the last node but one and the last one. -/
theorem lastLeft_spec (hl : Linked h up (join .left e l r)) (hne : l ≠ nil)
    (hfuel : (join .left e l r).height < fuel) :
    ∃ f q x u, lastLeft h fuel e.1.id = some (f.entry.1.id, x.1.id) ∧ f.side = .left ∧
      before (f :: q) = [] ∧ plug (f :: q) (join .left x nil u) = join .left e l r := by
  induction l generalizing e r up fuel with
  | nil => exact absurd rfl hne
  | node z l' r' ihl _ =>
    obtain ⟨fuel, rfl⟩ := Nat.exists_eq_succ_of_ne_zero (Nat.ne_zero_of_lt hfuel)
    obtain ⟨he, hz, hr⟩ := linked_join.mp hl
    simp only [height_join, height] at hfuel
    have hzn : h z.1.id = some (nodeRecord .left (some e.1.id) (rootId l') (rootId r') z) := hz.1
    have hstep : lastLeft h (fuel + 1) e.1.id = (rootId l').elim (some (e.1.id, z.1.id)) fun _ => lastLeft h fuel z.1.id := by
      rw [lastLeft, he]
      cases l' <;> simp only [Option.bind_eq_bind, Option.bind_some, nodeRecord, rootId, hzn, Option.elim]
    cases hl' : l' with
    | nil =>
      subst hl'
      exact ⟨⟨.left, e, r⟩, [], z, r', hstep, rfl, rfl, rfl⟩
    | node y l2 r2 =>
      rw [← hl']
      have hlow : (join .left z l' r').height < fuel := by
        rw [height_join]
        omega
      obtain ⟨f, q, x, u, hlast, hside, hbefore, hplug⟩ := ihl (e := z) (r := r') hz (by simp [hl']) hlow
      refine ⟨f, q ++ [⟨.left, e, r⟩], x, u, ?_, hside, ?_, ?_⟩
      · rw [hstep, hl']
        exact hlast
      · rw [← List.cons_append, before_append, hbefore]
        rfl
      · rw [← List.cons_append, plug_append, hplug]
        rfl

/-- What is stored at the nodes of a path says nothing about its balance. -/
theorem BalancedPath.replace {n : Nat} (hp : BalancedPath n (q ++ f :: p)) :
    BalancedPath n (q ++ { f with entry := (y, f.entry.2) } :: p) := by
  induction q generalizing n with
  | nil => exact hp
  | cons g q ih => exact ⟨hp.1, hp.2.1, hp.2.2.1, ih hp.2.2.2⟩

theorem rootId_plug (t u : AvlShape δ) : rootId (plug (f :: q) t) = rootId (plug (f :: q) u) := by
  induction q generalizing f t u with
  | nil => exact rootId_join.trans rootId_join.symm
  | cons g q ih => exact ih (f.fill t) (f.fill u)

/-- The next node in order takes the place of the one that is deleted. -/
theorem cutFar_spec (hside : f.side = .left)
    (hs : Stores h (plug p (join .left e l (plug (f :: q) (join .left x nil r)))))
    (hb : Balanced (plug p (join .left e l (plug (f :: q) (join .left x nil r)))))
    (hfuel : 2 * (q.length + p.length + 1) + 2 < fuel) :
    ∃ cut, cutFar h e.1.id f.entry.1.id x.1.id = some cut ∧
      Finishes fuel cut (treeEntries (plug p (join .left x l (plug (f :: q) r)))) := by
  have h0 := Scene.split (s := .left) [_, _] (Scene.zoom [_, _] (Stores.split (s := .left) hs))
  have hn : h e.1.id = some _ := h0.holds _ (List.mem_cons_self ..)
  have hxn : h x.1.id = some _ := h0.holds _ (List.mem_cons_of_mem _ (List.mem_cons_of_mem _
    (List.mem_cons_self ..)))
  rw [rootId_join] at h0
  obtain ⟨h1, e1, s1⟩ := Scene.edit [_, _] h0 (setChild .left (rootId l))
  obtain ⟨h2, e2, s2⟩ := Scene.reparent [_] s1 (some x.1.id)
  obtain ⟨h3, e3, s3⟩ := Scene.setHole [_, _, _, _, _] s2 (rootId r)
  obtain ⟨h4, e4, s4⟩ := Scene.reparent [_, _, _, _] s3 (some f.entry.1.id)
  obtain ⟨h5, e5, s5⟩ := Scene.edit [_, _] s4 (setChild .right (rootId (plug (f :: q) r)))
  have s5' := Scene.unzoom (p := f :: q) (t := r) [_, _, _, _] s5
  obtain ⟨h6, e6, s6⟩ := Scene.reparent [_, _, _, _] s5' (some x.1.id)
  obtain ⟨h7, e7, s7⟩ := Scene.edit [_, _] s6 (setBalance e.2)
  obtain ⟨h8, e8, s8⟩ := Scene.edit [_, _] s7 (setParent (upper none p))
  obtain ⟨h9, e9, s9⟩ := Scene.replaceChild [_, _, _, _, _] s8
    (Scene.off_path [_, _, _, _, _] s8 (List.mem_cons_self ..)) (some x.1.id)
  obtain ⟨h10, e10, s10⟩ := Scene.free [] s9
  have s11 : Stores h10 (plug p (join .left (x.1, e.2) l (plug (f :: q) r))) := by
    have := Scene.dropNil [_, _] s10
    exact Stores.merge (Scene.front [_] this)
  have hfocus : ∀ (z : AvlEntry δ × Int) (u : AvlShape δ),
      plug (q ++ ⟨.right, z, l⟩ :: p) (f.fill u) = plug p (join .left z l (plug (f :: q) u)) := by
    intro z u
    rw [plug_append]
    rfl
  rw [← hfocus] at s11 hb
  obtain ⟨h11, e11, s12⟩ := Stores.tilt s11 (-f.side.sign)
  have hcn := s11.root
  obtain ⟨hbal, hpath⟩ := (balanced_plug (f :: (q ++ ⟨.right, e, l⟩ :: p)) (join .left x nil r)).mp hb
  have hheight : (join .left x nil r).height = r.height + 1 := by simp [height_join]
  rw [hheight] at hpath
  have hpath' : BalancedPath (r.height + 1) (f :: (q ++ ⟨.right, (x.1, e.2), l⟩ :: p)) :=
    BalancedPath.replace (q := f :: q) (y := x.1) hpath
  have hend := settle_ascend s12 hbal.2.2.2 rfl hpath' (settle_low _ _ hpath'.2.2.2)
    (by simpa [Nat.add_assoc] using hfuel)
  obtain ⟨y, l1, l2, rfl⟩ : ∃ y l1 l2, l = join .left y l1 l2 := by
    obtain ⟨hd, hle, -⟩ := balanced_join.mp ((balanced_plug p _).mp (hfocus e _ ▸ hb)).1
    have := height_le_plug (f :: q) (join .left x nil r)
    simp only [List.length_cons, hheight, Hand.sign] at this hd
    obtain ⟨n, hn⟩ : ∃ n, l.height = n + 1 := ⟨l.height - 1, by omega⟩
    exact exists_join_of_height .left hn
  refine ⟨⟨h11, some f.entry.1.id, true, decide (f.entry.2 = 0)⟩, ?_, hend.finishes ?_⟩
  · rw [rootId_plug (join .left x nil r) r] at hn
    rw [hside] at e3 e11
    simp only [cutFar, hn, hxn, Option.bind_eq_bind, Option.bind_some, Option.bind_eq_some_iff]
    refine ⟨h1, e1, y.1.id, rfl, h2, e2, h3, e3, h4, e4, h5, e5, h6, e6, h7, e7, h8, e8, h9, e9, h10, e10, _,
      hcn, h11, e11, ?_⟩
    simp
  · have hf := treeEntries_join_fst (s := f.side) f.entry.1 (f.entry.2 + -f.side.sign) f.entry.2 r f.sibling
    refine (treeEntries_plug_congr hf).trans ?_
    refine (congrArg treeEntries (hfocus (x.1, e.2) r)).trans ?_
    exact treeEntries_plug_congr (treeEntries_join_fst (s := .left) x.1 e.2 x.2 _ _)

end

section

open TreeZipper AvlNode BinaryTree AvlPiece

variable {δ : Type} {h : AvlHeap δ} {above : AvlPath δ} {f : Frame (AvlEntry δ × Int)} {e : AvlEntry δ}
  {fuel : Nat} {key k : Text} {as bs : List (AvlEntry δ)}

/-- The tree in memory, and what is true of it between two operations. -/
structure AvlSound (t : AvlTree δ) (shape : AvlShape δ) : Prop where
  stores : Stores t.nodes shape
  root : t.tRoot = rootId shape
  balanced : Balanced shape
  ascending : Ascending (treeEntries shape)
  made : ∀ i ∈ treeIds shape, i < t.made

variable {tree : AvlTree δ} {shape : AvlShape δ}

theorem AvlSound.cells (hs : AvlSound tree shape) (i : NodeId) :
    (tree.nodes i).isSome ↔ i ∈ treeIds shape := by
  simpa [sceneIds, AvlPiece.ids] using hs.stores.cells i

theorem AvlSound.nodup (hs : AvlSound tree shape) : (treeIds shape).Nodup := by
  simpa [sceneIds, AvlPiece.ids] using hs.stores.nodup

theorem AvlSound.fresh (hs : AvlSound tree shape) : tree.nodes tree.made = none := by
  have hnot : ¬ (tree.nodes tree.made).isSome := fun h =>
    Nat.lt_irrefl _ (hs.made _ ((hs.cells _).mp h))
  simpa using hnot

theorem AvlSound.length_le (hs : AvlSound tree shape) : (inorder shape).length ≤ tree.made := by
  have hsub : treeIds shape ⊆ List.range tree.made := fun i hi => List.mem_range.mpr (hs.made i hi)
  have := (List.subperm_of_subset hs.nodup hsub).length_le
  simpa [treeIds] using this

/-- With the new leaf in its place, the balances are put right. -/
theorem hang_grows {n : NodeId} (hn : e.id = n) (hb : Balanced (plug (f :: above) nil))
    (hs : Stores h (plug above (join f.side
      (f.entry.1, if f.entry.2 + f.side.sign = 0 then 0 else f.entry.2) (leaf e) f.sibling)))
    (hfuel : (f :: above).length < fuel) :
    ∃ h' c' p' t', (if decide (f.entry.2 + f.side.sign = 0) = true then some (h, n) else growUp fuel h n) =
        some (h', c') ∧ Stores h' (plug p' t') ∧ rootId t' = some c' ∧ Balanced (plug p' t') ∧
      treeEntries (plug p' t') = treeEntries (plug (f :: above) (leaf e)) ∧
      p'.length ≤ (f :: above).length := by
  subst hn
  have hp := ((balanced_plug _ _).mp hb).2
  by_cases hd : f.entry.2 + f.side.sign = 0
  · obtain ⟨hbal, hheight⟩ := (balanced_raise hp (balanced_leaf (e := e)) rfl hd).1 (by simp)
    rw [if_pos hd] at hs
    rw [if_pos (by simpa using hd)]
    refine ⟨h, e.id, ⟨f.side, (f.entry.1, 0), f.sibling⟩ :: above, leaf e, rfl, hs, rfl, ?_, ?_,
      by simp⟩
    · exact (balanced_plug above _).mpr ⟨hbal, hheight ▸ hp.2.2.2⟩
    · exact treeEntries_plug_congr (p := above)
        (treeEntries_join_fst (s := f.side) f.entry.1 0 f.entry.2 (leaf e) f.sibling)
  · rw [if_neg hd] at hs
    rw [if_neg (by simpa using hd)]
    exact growUp_spec (p := f :: above) (t := leaf e) hs rfl balanced_leaf rfl (Or.inl rfl) hp hfuel

theorem addNode_spec (hs : AvlSound tree shape) (hnew : entryOf (treeEntries shape) key = none)
    (data : Option δ) :
    ∃ t' shape' as bs, addNode (createNode tree key data).1 tree.made = some (t', 0) ∧
      Stores t'.nodes shape' ∧ t'.tRoot = rootId shape' ∧ t'.made = tree.made + 1 ∧ Balanced shape' ∧
      treeEntries shape = as ++ bs ∧ treeEntries shape' = as ++ ⟨tree.made, key, data⟩ :: bs ∧
      (∀ x ∈ as, KeyLt x.key key) ∧ ∀ x ∈ bs, KeyLt key x.key := by
  have hmake := hs.stores.make (n := { nKey := key, nData := data }) hs.fresh
  cases hroot : rootId shape with
  | none =>
    cases shape with
    | node x l r => cases hroot
    | nil =>
      refine ⟨{ (createNode tree key data).1 with tRoot := some tree.made },
        leaf ⟨tree.made, key, data⟩, [], [], ?_, ?_, rfl, rfl, balanced_leaf, rfl, rfl, by simp, by simp⟩
      · rw [addNode, show (createNode tree key data).1.tRoot = none from hs.root]
      · exact Scene.leaf [] (Scene.dropNil [_] hmake)
  | some c =>
    have hsize := hs.length_le
    have hh := length_le_length [] shape
    have hfuel : (createNode tree key data).1.fuel = 2 * (tree.made + 1) + 3 := rfl
    have hread : (createNode tree key data).1.nodes tree.made = some { nKey := key, nData := data } :=
      Function.update_self ..
    simp only [plug] at hh
    rcases descend_spec (e := ⟨tree.made, key, data⟩) (p := []) hmake hroot hs.ascending
      ⟨by simp [before], by simp [after]⟩
      (show shape.height < (createNode tree key data).1.fuel by omega) with
      ⟨_, y, hy, hk⟩ | ⟨f, above, h', hd, hplug, hlead, hs'⟩
    · exact absurd hk (by simpa using List.find?_eq_none.mp hnew y hy)
    have hlen := length_le_length (f :: above) nil
    rw [hplug, plug] at hlen
    have hb := hs.balanced
    rw [show shape = plug (f :: above) nil from hplug.symm] at hb
    obtain ⟨h2, c2, p2, t2, hg, s2, hr2, hb2, he2, hl2⟩ := hang_grows rfl hb hs'
      (show (f :: above).length < (createNode tree key data).1.fuel by omega)
    obtain ⟨r, hclimb, hr⟩ := climb_spec s2 hr2
      (show p2.length < (createNode tree key data).1.fuel by omega)
    refine ⟨{ (createNode tree key data).1 with tRoot := some r, nodes := h2 }, plug p2 t2,
      (before (f :: above)).map (·.1), (after (f :: above)).map (·.1), ?_, s2, hr.symm, rfl, hb2,
      ?_, ?_, ?_, ?_⟩
    · rw [addNode, show (createNode tree key data).1.tRoot = some c from hs.root.trans hroot]
      simp only [hread, Option.bind_eq_bind, Option.bind_some]
      have hd' : descend tree.made key (createNode tree key data).1.fuel (createNode tree key data).1.nodes c =
          some (some (h', decide (f.entry.2 + f.side.sign = 0))) := hd
      rw [hd', Option.bind_some]
      dsimp only
      by_cases hflag : decide (f.entry.2 + f.side.sign = 0) = true
      · rw [if_pos hflag] at hg ⊢
        cases hg
        rw [hclimb, Option.bind_some]
      · rw [if_neg hflag] at hg ⊢
        rw [hg, Option.bind_some, hclimb, Option.bind_some]
    · rw [show shape = plug (f :: above) nil from hplug.symm, treeEntries, inorder_plug]
      simp [inorder]
    · rw [he2, treeEntries, inorder_plug]
      simp [leaf, join, inorder]
    · simpa using fun x d hx => hlead.below (x, d) hx
    · simpa using fun x d hx => hlead.above (x, d) hx

theorem entryOf_outside (hlow : ∀ x ∈ as, KeyLt x.key key) (hhigh : ∀ x ∈ bs, KeyLt key x.key) :
    entryOf (as ++ bs) key = none := by
  refine entryOf_eq_none fun x hx => ?_
  rcases List.mem_append.mp hx with hx | hx
  · exact (hlow x hx).ne
  · exact (hhigh x hx).ne.symm

theorem entryOf_between (hlow : ∀ x ∈ as, KeyLt x.key e.key) :
    entryOf (as ++ e :: bs) k = if k = e.key then some e else entryOf (as ++ bs) k := by
  rw [entryOf_append, entryOf_cons]
  by_cases hk : k = e.key
  · subst hk
    rw [if_pos rfl, if_pos rfl, entryOf_eq_none fun x hx => (hlow x hx).ne, Option.none_or]
  · rw [if_neg hk, if_neg (Ne.symm hk), entryOf_append]

theorem storeExposedNode_eq (t : AvlTree δ) (key : Text) (data : Option δ) :
    storeExposedNode t key data = (addNode (createNode t key data).1 t.made).bind fun r =>
      if r.2 < 0 then (AvlHeap.free r.1.nodes t.made).bind fun h => some ({ r.1 with nodes := h }, none)
      else some (r.1, some t.made) := rfl

/-- A key that is there already is refused, and memory is as before. -/
theorem storeExposedNode_refuses (hs : AvlSound tree shape)
    (hold : entryOf (treeEntries shape) key ≠ none) (data : Option δ) :
    storeExposedNode tree key data = some ({ tree with made := tree.made + 1 }, none) := by
  have hmake := hs.stores.make (n := { nKey := key, nData := data }) hs.fresh
  have hsize := hs.length_le
  have hh := length_le_length [] shape
  have hfuel : (createNode tree key data).1.fuel = 2 * (tree.made + 1) + 3 := rfl
  have hread : (createNode tree key data).1.nodes tree.made = some { nKey := key, nData := data } :=
    Function.update_self ..
  simp only [plug] at hh
  cases hroot : rootId shape with
  | none =>
    cases shape with
    | nil => exact absurd rfl hold
    | node x l r => cases hroot
  | some c =>
    rcases descend_spec (e := ⟨tree.made, key, data⟩) (p := []) hmake hroot hs.ascending
      ⟨by simp [before], by simp [after]⟩
      (show shape.height < (createNode tree key data).1.fuel by omega) with
      ⟨hd, _⟩ | ⟨f, above, h', hd, hplug, hlead, hs'⟩
    · have hd' : descend tree.made key (createNode tree key data).1.fuel
          (createNode tree key data).1.nodes c = some none := hd
      have hadd : addNode (createNode tree key data).1 tree.made = some ((createNode tree key data).1, -1) := by
        rw [addNode, show (createNode tree key data).1.tRoot = some c from hs.root.trans hroot]
        simp only [hread, Option.bind_eq_bind, Option.bind_some, hd']
      have hfree : AvlHeap.free (createNode tree key data).1.nodes tree.made = some tree.nodes := by
        rw [AvlHeap.free, hread, Option.map_some]
        refine congrArg some (funext fun i => ?_)
        rw [createNode, Function.update_idem, Function.update_apply]
        split
        next hi => rw [hi, hs.fresh]
        next => rfl
      rw [storeExposedNode_eq, hadd, Option.bind_some, if_pos (show (-1 : Int) < 0 by decide), hfree]
      rfl
    · refine absurd ?_ hold
      rw [show shape = plug (f :: above) nil from hplug.symm, treeEntries, inorder_plug]
      simp only [inorder, List.append_nil, List.map_append]
      refine entryOf_outside ?_ ?_
      · simpa using fun x d hx => hlead.below (x, d) hx
      · simpa using fun x d hx => hlead.above (x, d) hx

theorem storeExposedNode_stores (hs : AvlSound tree shape)
    (hnew : entryOf (treeEntries shape) key = none) (data : Option δ) :
    ∃ t' shape', storeExposedNode tree key data = some (t', some tree.made) ∧ AvlSound t' shape' ∧
      ∀ k, entryOf (treeEntries shape') k =
        if k = key then some ⟨tree.made, key, data⟩ else entryOf (treeEntries shape) k := by
  obtain ⟨t', shape', as, bs, he, hst, hroot, hmade, hbal, hold, hent, hlow, hhigh⟩ :=
    addNode_spec hs hnew data
  have hasc := hs.ascending
  rw [hold] at hasc
  obtain ⟨ha, hb, hab⟩ := List.pairwise_append.mp hasc
  refine ⟨t', shape', ?_, ⟨hst, hroot, hbal, ?_, ?_⟩, ?_⟩
  · rw [storeExposedNode_eq, he, Option.bind_some, if_neg (show ¬ (0 : Int) < 0 by decide)]
  · rw [hent]
    refine List.pairwise_append.mpr ⟨ha, List.pairwise_cons.mpr ⟨hhigh, hb⟩, ?_⟩
    intro x hx y hy
    rcases List.mem_cons.mp hy with rfl | hy
    · exact hlow x hx
    · exact hab x hx y hy
  · intro i hi
    have hmd := hs.made
    rw [treeIds_eq, hent] at hi
    rw [treeIds_eq, hold] at hmd
    simp only [List.map_append, List.map_cons, List.mem_append, List.mem_cons] at hi hmd
    rw [hmade]
    rcases hi with hi | rfl | hi
    · exact Nat.lt_succ_of_lt (hmd i (Or.inl hi))
    · exact Nat.lt_succ_self _
    · exact Nat.lt_succ_of_lt (hmd i (Or.inr hi))
  · intro k
    rw [hent, hold]
    exact entryOf_between hlow

end

end Katcp
