import Katcp.AvlRotate

namespace Katcp

section

open TreeZipper AvlNode BinaryTree AvlPiece

variable {δ : Type} {h : AvlHeap δ} {p : AvlPath δ} {t t1 t2 far : AvlShape δ}
  {a b c : AvlEntry δ × Int} {s : Hand}

/-- What is stored in the tree, in order, whatever the balances are. -/
def treeEntries (t : AvlShape δ) : List (AvlEntry δ) := (inorder t).map (·.1)

theorem treeIds_eq (t : AvlShape δ) : treeIds t = (treeEntries t).map (·.id) := by
  simp [treeIds, treeEntries]

theorem treeEntries_join_fst (x : AvlEntry δ) (d d' : Int) (t1 t2 : AvlShape δ) :
    treeEntries (join s (x, d) t1 t2) = treeEntries (join s (x, d') t1 t2) := by
  cases s <;> simp [treeEntries, join, inorder]

theorem treeEntries_plug_congr {u : AvlShape δ} (he : treeEntries t = treeEntries u) :
    treeEntries (plug p t) = treeEntries (plug p u) := by
  simp only [treeEntries] at he
  simp [treeEntries, inorder_plug, he]

theorem Stores.root (hs : Stores h (plug p (join s a t1 t2))) :
    h a.1.id = some (nodeRecord s (upper none p) (rootId t1) (rootId t2) a) :=
  hs.split.holds _ (List.mem_cons_self ..)

theorem exists_join_of_height {n : Nat} (s : Hand) (ht : t.height = n + 1) :
    ∃ x near far, t = join s x near far := by
  cases t with
  | nil => cases ht
  | node x l r =>
    cases s
    · exact ⟨x, l, r, rfl⟩
    · exact ⟨x, r, l, rfl⟩

theorem rebalance_eq (hs : Stores h (plug p (join s a (join s b t1 t2) far))) (ha : a.2 = 2 * s.sign) :
    rebalance h a.1.id =
      rotateBy s (if b.2 = 0 then s else if b.2 = -1 then .left else .right) h a.1.id := by
  have hroot := hs.root
  have hchild : h b.1.id = some (nodeRecord s (some a.1.id) (rootId t1) (rootId t2) b) :=
    (Scene.split [_] hs.split).holds _ (List.mem_cons_of_mem _ (List.mem_cons_self ..))
  rw [rootId_join] at hroot
  have hfirst : (if a.2 = -2 then Hand.left else Hand.right) = s := by
    cases s <;> simp [ha, Hand.sign]
  simp only [rebalance, hroot, Option.bind_eq_bind, Option.bind_some, nodeRecord_balance, hfirst,
    nodeRecord_child]
  rw [hchild, Option.bind_some, nodeRecord_balance]

/-- A subtree that leans by two is balanced again, with what it stores in the same order. -/
theorem rebalance_spec (hs : Stores h (plug p (join s a (join s b t1 t2) far))) (ha : a.2 = 2 * s.sign)
    (hb : Balanced (join s b t1 t2)) (hf : Balanced far)
    (hh : (join s b t1 t2).height = far.height + 2) :
    ∃ h' t' c, rebalance h a.1.id = some (h', c) ∧ rootId t' = some c ∧ Stores h' (plug p t') ∧
      Balanced t' ∧ treeEntries t' = treeEntries (join s a (join s b t1 t2) far) ∧
      t'.height = far.height + if b.2 = 0 then 3 else 2 := by
  rw [rebalance_eq hs ha]
  obtain ⟨hd, hle, h1, h2⟩ := balanced_join.mp hb
  by_cases hz : b.2 = -s.sign
  · have hz0 : b.2 ≠ 0 := by cases s <;> simp [hz, Hand.sign]
    rw [height_join] at hh
    have ht2 : t2.height = t1.height + 1 := by
      rw [hz] at hd
      cases s <;> simp only [Hand.sign] at hd <;> omega
    obtain ⟨c, t3, t4, rfl⟩ := exists_join_of_height .left ht2
    obtain ⟨hc, hcle, h3, h4⟩ := balanced_join.mp h2
    have hht := height_join .left c t3 t4
    cases s with
    | left =>
      obtain ⟨h', he, hs'⟩ := rotateLeftRight_spec hcle hs
      obtain ⟨hbal, hheight⟩ := balanced_rotateTwice h1 h2 hf (by omega) (by omega)
      refine ⟨h', _, c.1.id, ?_, rfl, hs', hbal, by simp [treeEntries, join, inorder], ?_⟩
      · simp [hz, Hand.sign, rotateBy, he]
      · rw [hheight, if_neg hz0]
        omega
    | right =>
      have hs : Stores h (plug p (join .right a (join .left b (join .left c t3 t4) t1) far)) := hs
      obtain ⟨h', he, hs'⟩ := rotateRightLeft_spec hcle hs
      obtain ⟨hbal, hheight⟩ := balanced_rotateTwice hf h2 h1 (by omega) (by omega)
      refine ⟨h', _, c.1.id, ?_, rfl, hs', hbal, by simp [treeEntries, join, inorder], ?_⟩
      · simp [hz, Hand.sign, rotateBy, he]
      · rw [hheight, if_neg hz0]
  · obtain ⟨h', he, hs'⟩ := rotateSame_spec hs
    obtain ⟨hbal, hheight⟩ := balanced_rotate (a := a.1) hb hf hh hz
    have hsecond : (if b.2 = 0 then s else if b.2 = -1 then .left else .right) = s := by
      cases s <;> simp only [Hand.sign] at hz hd <;> split <;> grind
    refine ⟨h', _, b.1.id, ?_, ?_, hs', hbal, ?_, hheight⟩
    · rw [hsecond, ← he]
      cases s <;> rfl
    · exact rootId_join
    · cases s <;> simp [treeEntries, join, inorder]

end

section

open TreeZipper AvlNode BinaryTree AvlPiece

variable {δ : Type} {h : AvlHeap δ} {p : AvlPath δ} {t l r : AvlShape δ} {x : AvlEntry δ × Int}
  {up : Option NodeId} {key : Text} {es es' : List (AvlEntry δ)} {e : AvlEntry δ} {fuel : Nat}

theorem strcmp_eq_compareLex : strcmp = List.compareLex compare := by
  funext s t
  induction s generalizing t with
  | nil => cases t <;> rfl
  | cons a s ih =>
    cases t with
    | nil => rfl
    | cons b t =>
      rw [List.compareLex_cons_cons, strcmp, ih]
      simp only [compare, compareOfLessAndEq]
      by_cases hab : a < b
      · simp [hab]
      by_cases heq : a = b
      · simp [heq]
      have hba : b < a := UInt8.lt_of_le_of_ne (UInt8.not_lt.mp hab) (Ne.symm heq)
      simp [hab, heq, hba]

instance : Std.TransCmp strcmp := strcmp_eq_compareLex ▸ inferInstance

instance : Std.LawfulEqCmp strcmp := strcmp_eq_compareLex ▸ inferInstance

theorem strcmp_self (s : Text) : strcmp s s = .eq := Std.ReflCmp.compare_self

theorem strcmp_swap (s t : Text) : strcmp s t = (strcmp t s).swap := Std.OrientedCmp.eq_swap

theorem eq_of_strcmp {s t : Text} (h : strcmp s t = .eq) : s = t := Std.LawfulEqCmp.eq_of_compare h

def KeyLt (s t : Text) : Prop := strcmp s t = .lt

/-- Strictly increasing keys. -/
def Ascending (es : List (AvlEntry δ)) : Prop := es.Pairwise fun a b => KeyLt a.key b.key

/-- What is stored under the key. -/
def entryOf (es : List (AvlEntry δ)) (key : Text) : Option (AvlEntry δ) := es.find? (·.key = key)

theorem KeyLt.trans {a b c : Text} (h1 : KeyLt a b) (h2 : KeyLt b c) : KeyLt a c :=
  Std.TransCmp.lt_trans h1 h2

theorem KeyLt.ne {a b : Text} (h : KeyLt a b) : a ≠ b := by
  rintro rfl
  rw [KeyLt, strcmp_self] at h
  cases h

theorem keyLt_of_gt {a b : Text} (h : strcmp a b = .gt) : KeyLt b a := by
  rw [KeyLt, strcmp_swap, h]
  rfl

theorem entryOf_append : entryOf (es ++ es') key = (entryOf es key).or (entryOf es' key) :=
  List.find?_append

theorem entryOf_eq_none (hne : ∀ e ∈ es, e.key ≠ key) : entryOf es key = none :=
  List.find?_eq_none.mpr fun e he => by simpa using hne e he

theorem entryOf_cons : entryOf (e :: es) key = if e.key = key then some e else entryOf es key := by
  rw [entryOf, List.find?_cons]
  split <;> simp_all [entryOf]

theorem treeEntries_node : treeEntries (node x l r) = treeEntries l ++ x.1 :: treeEntries r := by
  simp [treeEntries, inorder]

theorem findFrom_spec (hl : Linked h up t) (hsort : Ascending (treeEntries t)) (hfuel : t.height < fuel) :
    findFrom h key fuel (rootId t) = some ((entryOf (treeEntries t) key).map (·.id)) := by
  induction t generalizing up fuel with
  | nil =>
    obtain ⟨fuel, rfl⟩ := Nat.exists_eq_succ_of_ne_zero (Nat.ne_zero_of_lt hfuel)
    rfl
  | node x l r ihl ihr =>
    obtain ⟨fuel, rfl⟩ := Nat.exists_eq_succ_of_ne_zero (Nat.ne_zero_of_lt hfuel)
    obtain ⟨hx, hl, hr⟩ := hl
    simp only [height] at hfuel
    rw [treeEntries_node] at hsort ⊢
    obtain ⟨hsl, hsr, hlr⟩ := List.pairwise_append.mp hsort
    obtain ⟨hxr, hsr⟩ := List.pairwise_cons.mp hsr
    have hlx : ∀ e ∈ treeEntries l, KeyLt e.key x.1.key := fun e he => hlr e he _ (List.mem_cons_self ..)
    rw [rootId, findFrom, hx, entryOf_append]
    simp only [Option.bind_eq_bind, Option.bind_some, nodeRecord]
    cases hc : strcmp key x.1.key with
    | eq =>
      cases eq_of_strcmp hc
      rw [entryOf_eq_none fun e he => (hlx e he).ne, entryOf_cons, if_pos rfl, Option.none_or,
        Option.map_some]
    | lt =>
      have hright : entryOf (x.1 :: treeEntries r) key = none := by
        refine entryOf_eq_none fun e he => ?_
        rcases List.mem_cons.mp he with rfl | he
        · exact (KeyLt.ne hc).symm
        · exact (KeyLt.trans hc (hxr e he)).ne.symm
      rw [hright, Option.or_none]
      exact ihl hl hsl (by omega)
    | gt =>
      have hx := keyLt_of_gt hc
      rw [entryOf_eq_none fun e he => ((hlx e he).trans hx).ne, Option.none_or, entryOf_cons, if_neg hx.ne]
      exact ihr hr hsr (by omega)

end

section

open TreeZipper AvlNode BinaryTree AvlPiece

variable {δ : Type} {h : AvlHeap δ} {p above : AvlPath δ} {t t1 t2 : AvlShape δ}
  {a x : AvlEntry δ × Int} {s : Hand} {c i : NodeId} {f : Frame (AvlEntry δ × Int)}
  {ps : List (AvlPiece δ)} {up : Option NodeId} {n fuel : Nat} {d : Int}

def rootBalance : AvlShape δ → Int
  | .nil => 0
  | .node x _ _ => x.2

theorem rootBalance_join : rootBalance (join s x t1 t2) = x.2 := by
  cases s <;> rfl

/-- The node at a place of the tree knows what is above it, and how it leans. -/
theorem Stores.focus (hs : Stores h (plug p t)) (hr : rootId t = some c) :
    ∃ n, h c = some n ∧ n.nParent = upper none p ∧ n.nBalance = rootBalance t := by
  cases t with
  | nil => cases hr
  | node x l r =>
    cases hr
    exact ⟨_, Stores.root (s := .left) hs, rfl, rfl⟩

theorem rootBalance_le (ht : Balanced t) : (rootBalance t).natAbs ≤ 1 := by
  cases t with
  | nil => exact Nat.zero_le 1
  | node x l r => exact ht.2.1

theorem Stores.tilt (hs : Stores h (plug p (join s a t1 t2))) (d : Int) :
    ∃ h', h.edit a.1.id (AvlNode.tilt d) = some h' ∧
      Stores h' (plug p (join s (a.1, a.2 + d) t1 t2)) := by
  obtain ⟨h', he, hs'⟩ := Scene.edit [] hs.split (AvlNode.tilt d)
  rw [nodeRecord_tilt] at hs'
  exact ⟨h', he, Stores.merge (a := (a.1, a.2 + d)) hs'⟩

/-- Under its parent the root of a subtree is on the side the path says, and on no other. -/
theorem Stores.beside (hs : Stores h (plug above (f.fill t))) (hr : rootId t = some c) :
    rootId f.sibling ≠ some c := by
  intro hsib
  have hnd := (Stores.split (s := f.side) hs).nodup
  simp only [sceneIds, List.flatMap_cons, AvlPiece.ids, List.singleton_append, List.nodup_cons,
    List.nodup_append] at hnd
  exact hnd.2.2.2 c (rootId_mem hr) c (List.mem_append_left _ (rootId_mem hsib)) rfl

theorem Stores.parent (hs : Stores h (plug above (f.fill t))) :
    h f.entry.1.id = some (nodeRecord f.side (upper none above) (rootId t) (rootId f.sibling) f.entry) :=
  Stores.root (s := f.side) hs

/-- From a subtree that has grown the balances are put right up to the root, or to where the
height does not change. -/
theorem growUp_spec (hs : Stores h (plug p t)) (hr : rootId t = some c) (ht : Balanced t)
    (hh : t.height = n + 1) (hlean : n = 0 ∨ rootBalance t ≠ 0) (hp : BalancedPath n p)
    (hfuel : p.length < fuel) :
    ∃ h' c' p' t', growUp fuel h c = some (h', c') ∧ Stores h' (plug p' t') ∧ rootId t' = some c' ∧
      Balanced (plug p' t') ∧ treeEntries (plug p' t') = treeEntries (plug p t) ∧
      p'.length ≤ p.length := by
  induction p generalizing h t c n fuel with
  | nil =>
    obtain ⟨fuel, rfl⟩ := Nat.exists_eq_succ_of_ne_zero (Nat.ne_zero_of_lt hfuel)
    obtain ⟨cn, hc, hup, -⟩ := hs.focus hr
    refine ⟨h, c, [], t, ?_, hs, hr, ht, rfl, Nat.le_refl _⟩
    rw [growUp, hc]
    simp [hup, upper]
  | cons f above ih =>
    obtain ⟨fuel, rfl⟩ := Nat.exists_eq_succ_of_ne_zero (Nat.ne_zero_of_lt hfuel)
    obtain ⟨cn, hc, hup, -⟩ := hs.focus hr
    have hpn := Stores.parent (f := f) hs
    have hside : (if (nodeRecord f.side (upper none above) (rootId t) (rootId f.sibling) f.entry).nLeft =
        some c then -1 else 1) = f.side.sign := by
      have hsib := Stores.beside (f := f) hs hr
      cases f.side
      · exact if_pos hr
      · exact if_neg hsib
    obtain ⟨h1, e1, s1⟩ := Stores.tilt (s := f.side) hs f.side.sign
    have hroot := s1.root
    obtain ⟨hsmall, hlarge⟩ := balanced_raise hp ht hh rfl
    have hstep : growUp (fuel + 1) h c =
        if f.entry.2 + f.side.sign = 0 then some (h1, f.entry.1.id)
        else if 1 < (f.entry.2 + f.side.sign).natAbs then rebalance h1 f.entry.1.id
        else growUp fuel h1 f.entry.1.id := by
      rw [growUp, hc]
      simp only [Option.bind_eq_bind, Option.bind_some, hup, upper]
      rw [hpn, Option.bind_some, hside, e1, Option.bind_some, hroot, Option.bind_some, nodeRecord_balance]
    have hsame : treeEntries (plug above (join f.side (f.entry.1, f.entry.2 + f.side.sign) t f.sibling)) =
        treeEntries (plug (f :: above) t) := treeEntries_plug_congr (treeEntries_join_fst ..)
    rw [hstep]
    by_cases hd : f.entry.2 + f.side.sign = 0
    · obtain ⟨hbal, hheight⟩ := hsmall (by omega)
      rw [if_pos hd] at hheight ⊢
      refine ⟨h1, _, above, _, rfl, s1, rootId_join, ?_, hsame, by simp⟩
      exact (balanced_plug above _).mpr ⟨hbal, hheight ▸ hp.2.2.2⟩
    rw [if_neg hd] at hsmall ⊢
    by_cases hle : 1 < (f.entry.2 + f.side.sign).natAbs
    · obtain ⟨hd2, hn⟩ := hlarge hle
      obtain ⟨x, u1, u2, rfl⟩ := exists_join_of_height f.side hh
      have hx : x.2 ≠ 0 := by
        have := hlean.resolve_left (by omega)
        rwa [rootBalance_join] at this
      obtain ⟨h2, t', c', e2, hr', s2, hbal, hent, hheight⟩ :=
        rebalance_spec s1 hd2 ht hp.2.2.1 (by omega)
      rw [if_neg hx] at hheight
      rw [if_pos hle]
      refine ⟨h2, c', above, t', e2, s2, hr', ?_, (treeEntries_plug_congr hent).trans hsame, by simp⟩
      refine (balanced_plug above t').mpr ⟨hbal, ?_⟩
      rw [hheight, show f.sibling.height + 2 = max n f.sibling.height + 1 by omega]
      exact hp.2.2.2
    · obtain ⟨hbal, hheight⟩ := hsmall (by omega)
      rw [if_neg hle]
      obtain ⟨h2, c', p', t', e2, s2, hr', hbal', hent, hlen⟩ :=
        ih s1 rootId_join hbal hheight (Or.inr (by rwa [rootBalance_join])) hp.2.2.2
          (by simpa using hfuel)
      exact ⟨h2, c', p', t', e2, s2, hr', hbal', hent.trans hsame, by simp; omega⟩

/-- Climbing from anywhere leads to the root. -/
theorem climb_spec (hs : Stores h (plug p t)) (hr : rootId t = some c) (hfuel : p.length < fuel) :
    ∃ r, climb h fuel c = some r ∧ rootId (plug p t) = some r := by
  induction p generalizing t c fuel with
  | nil =>
    obtain ⟨fuel, rfl⟩ := Nat.exists_eq_succ_of_ne_zero (Nat.ne_zero_of_lt hfuel)
    obtain ⟨cn, hc, hup, -⟩ := hs.focus hr
    refine ⟨c, ?_, hr⟩
    rw [climb, hc]
    simp [hup, upper]
  | cons f above ih =>
    obtain ⟨fuel, rfl⟩ := Nat.exists_eq_succ_of_ne_zero (Nat.ne_zero_of_lt hfuel)
    obtain ⟨cn, hc, hup, -⟩ := hs.focus hr
    obtain ⟨r, he, hroot⟩ := ih (t := f.fill t) hs rootId_join (by simpa using hfuel)
    refine ⟨r, ?_, hroot⟩
    rw [climb, hc]
    simpa [hup, upper] using he

end

section

open TreeZipper AvlNode BinaryTree AvlPiece

variable {δ : Type} {h : AvlHeap δ} {p above : AvlPath δ} {t near far whole : AvlShape δ}
  {a b : AvlEntry δ × Int} {s : Hand} {c : NodeId} {n fuel : Nat}

/-- The loop of a deletion ends with a balanced tree that stores what `whole` does. -/
def AvlSettles (fuel : Nat) (h : AvlHeap δ) (c : NodeId) (flag : Bool) (whole : AvlShape δ) : Prop :=
  ∃ h' c' t', settle fuel h c flag = some (h', c') ∧ Stores h' t' ∧ rootId t' = some c' ∧
    Balanced t' ∧ treeEntries t' = treeEntries whole

theorem AvlSettles.congr {whole' : AvlShape δ} {flag : Bool} (hs : AvlSettles fuel h c flag whole)
    (he : treeEntries whole = treeEntries whole') : AvlSettles fuel h c flag whole' := by
  obtain ⟨h', c', t', hset, hst, hr, hb, hent⟩ := hs
  exact ⟨h', c', t', hset, hst, hr, hb, hent.trans he⟩

theorem settle_flagged (hs : Stores h (plug p t)) (hr : rootId t = some c) (hb : Balanced (plug p t))
    (hfuel : p.length < fuel) : AvlSettles fuel h c true (plug p t) := by
  induction p generalizing t c fuel with
  | nil =>
    obtain ⟨fuel, rfl⟩ := Nat.exists_eq_succ_of_ne_zero (Nat.ne_zero_of_lt hfuel)
    obtain ⟨cn, hc, hup, -⟩ := hs.focus hr
    refine ⟨h, c, t, ?_, hs, hr, hb, rfl⟩
    rw [settle, hc]
    simp [hup, upper]
  | cons f above ih =>
    obtain ⟨fuel, rfl⟩ := Nat.exists_eq_succ_of_ne_zero (Nat.ne_zero_of_lt hfuel)
    obtain ⟨cn, hc, hup, -⟩ := hs.focus hr
    obtain ⟨h', c', t', he, hrest⟩ := ih (t := f.fill t) hs rootId_join hb (by simpa using hfuel)
    refine ⟨h', c', t', ?_, hrest⟩
    rw [settle, hc]
    simpa [hup, upper] using he

/-- A subtree that leans by two, as high as the path says: it is balanced first. -/
theorem settle_heavy (hs : Stores h (plug p (join s a near far))) (ha : a.2 = 2 * s.sign)
    (hn : Balanced near) (hf : Balanced far) (hh : near.height = far.height + 2)
    (hp : BalancedPath (near.height + 1) p) (hfuel : p.length < fuel)
    (hlow : ∀ h' t' c', Stores h' (plug p t') → rootId t' = some c' → Balanced t' →
      t'.height = near.height → AvlSettles fuel h' c' false (plug p t')) :
    AvlSettles (fuel + 1) h a.1.id false (plug p (join s a near far)) := by
  obtain ⟨b, t1, t2, rfl⟩ := exists_join_of_height s hh
  obtain ⟨h1, t', c', he, hr', hs', hbal, hent, hheight⟩ := rebalance_spec hs ha hn hf hh
  have hroot := hs.root
  have hchild : h b.1.id = some (nodeRecord s (some a.1.id) (rootId t1) (rootId t2) b) :=
    (Scene.split [_] hs.split).holds _ (List.mem_cons_of_mem _ (List.mem_cons_self ..))
  have hstep : settle (fuel + 1) h a.1.id false = settle fuel h1 c' (decide (b.2 = 0)) := by
    have hlevel : isLevel h (if 1 < a.2
        then (nodeRecord s (upper none p) (rootId (join s b t1 t2)) (rootId far) a).nRight
        else (nodeRecord s (upper none p) (rootId (join s b t1 t2)) (rootId far) a).nLeft) =
          some (decide (b.2 = 0)) := by
      have hnear : isLevel h (rootId (join s b t1 t2)) = some (decide (b.2 = 0)) := by
        rw [rootId_join, isLevel, hchild, Option.map_some, nodeRecord_balance]
      cases s
      · rw [if_neg (by simp [ha, Hand.sign])]
        exact hnear
      · rw [if_pos (by simp [ha, Hand.sign])]
        exact hnear
    rw [settle, hroot]
    simp only [Option.bind_eq_bind, Option.bind_some, nodeRecord_balance]
    rw [if_neg (by simp), if_pos (by cases s <;> simp [ha, Hand.sign]), hlevel, Option.bind_some, he]
    rfl
  rw [AvlSettles, hstep]
  refine AvlSettles.congr ?_ (treeEntries_plug_congr hent)
  by_cases hz : b.2 = 0
  · rw [if_pos hz] at hheight
    rw [decide_eq_true hz]
    refine settle_flagged hs' hr' ((balanced_plug p t').mpr ⟨hbal, ?_⟩) hfuel
    rwa [hheight, show far.height + 3 = (join s b t1 t2).height + 1 by omega]
  · rw [if_neg hz] at hheight
    rw [decide_eq_false hz]
    exact hlow h1 t' c' hs' hr' hbal (by omega)

/-- What the loop does from any subtree under the path that is one lower than the path says. -/
def AvlSettlesLow (p : AvlPath δ) (n : Nat) : Prop :=
  ∀ fuel h t c, Stores h (plug p t) → rootId t = some c → Balanced t → t.height + 1 = n →
    2 * p.length + 1 < fuel → AvlSettles (δ := δ) fuel h c false (plug p t)

theorem join_other (s : Hand) (x : AvlEntry δ × Int) : join s.other x far near = join s x near far := by
  cases s <;> rfl

/-- The parent of a subtree that has shrunk leans accordingly, and the loop goes on there. -/
theorem settle_ascend {f : Frame (AvlEntry δ × Int)}
    (hs : Stores h (plug above (join f.side (f.entry.1, f.entry.2 - f.side.sign) t f.sibling)))
    (ht : Balanced t) (hh : t.height + 1 = n) (hp : BalancedPath n (f :: above))
    (hlow : AvlSettlesLow above (max n f.sibling.height + 1)) (hfuel : 2 * above.length + 2 < fuel) :
    AvlSettles fuel h f.entry.1.id (decide (f.entry.2 = 0))
      (plug above (join f.side (f.entry.1, f.entry.2 - f.side.sign) t f.sibling)) := by
  obtain ⟨hsmall, hlarge⟩ := balanced_lower hp ht hh rfl
  have hsign : f.side.sign = 1 ∨ f.side.sign = -1 := by cases f.side <;> simp [Hand.sign]
  by_cases hz : f.entry.2 = 0
  · obtain ⟨hbal, hheight⟩ := hsmall (by omega)
    rw [if_neg (by omega)] at hheight
    rw [decide_eq_true hz]
    exact settle_flagged hs rootId_join ((balanced_plug above _).mpr ⟨hbal, hheight ▸ hp.2.2.2⟩)
      (by omega)
  rw [decide_eq_false hz]
  have hle := hp.2.1
  by_cases hd : 1 < (f.entry.2 - f.side.sign).natAbs
  · obtain ⟨hd2, hsib⟩ := hlarge hd
    obtain ⟨fuel, rfl⟩ := Nat.exists_eq_succ_of_ne_zero (Nat.ne_zero_of_lt hfuel)
    rw [← join_other] at hs ⊢
    have hmax : max n f.sibling.height + 1 = f.sibling.height + 1 := by omega
    refine settle_heavy hs ?_ hp.2.2.1 ht hsib (hmax ▸ hp.2.2.2) (by omega) ?_
    · rw [hd2]
      cases f.side <;> rfl
    · intro h' t' c' hs' hr' hb' hh'
      exact hlow fuel h' t' c' hs' hr' hb' (by omega) (by omega)
  · obtain ⟨hbal, hheight⟩ := hsmall (by omega)
    rw [if_pos (by omega)] at hheight
    exact hlow fuel h _ _ hs rootId_join hbal (by omega) (by omega)

theorem settle_low (p : AvlPath δ) (n : Nat) (hp : BalancedPath n p) : AvlSettlesLow p n := by
  induction p generalizing n with
  | nil =>
    intro fuel h t c hs hr ht hh hfuel
    obtain ⟨fuel, rfl⟩ := Nat.exists_eq_succ_of_ne_zero (Nat.ne_zero_of_lt hfuel)
    obtain ⟨cn, hc, hup, hbal⟩ := hs.focus hr
    have hle := rootBalance_le ht
    refine ⟨h, c, t, ?_, hs, hr, ht, rfl⟩
    rw [settle, hc]
    simp [hup, upper, hbal, Nat.not_lt.mpr hle]
  | cons f above ih =>
    intro fuel h t c hs hr ht hh hfuel
    obtain ⟨fuel, rfl⟩ := Nat.exists_eq_succ_of_ne_zero (Nat.ne_zero_of_lt hfuel)
    obtain ⟨cn, hc, hup, hbal⟩ := hs.focus hr
    have hle := rootBalance_le ht
    have hpn := Stores.parent (f := f) hs
    obtain ⟨h1, e1, s1⟩ := Stores.tilt (s := f.side) hs (-f.side.sign)
    have hstep : settle (fuel + 1) h c false =
        settle fuel h1 f.entry.1.id (decide (f.entry.2 = 0)) := by
      have hsib := Stores.beside (f := f) hs hr
      rw [settle, hc]
      simp only [Option.bind_eq_bind, Option.bind_some, hup, upper, hbal]
      rw [if_neg (by simp), if_neg (Nat.not_lt.mpr hle), hpn, Option.bind_some, nodeRecord_balance]
      cases hside : f.side with
      | left =>
        rw [hside] at e1
        simp [nodeRecord, hr, show h.edit f.entry.1.id (AvlNode.tilt 1) = some h1 from e1]
      | right =>
        rw [hside] at e1
        simp [nodeRecord, hr, hsib, show h.edit f.entry.1.id (AvlNode.tilt (-1)) = some h1 from e1]
    rw [AvlSettles, hstep]
    refine AvlSettles.congr (settle_ascend s1 ht hh hp (ih _ hp.2.2.2) ?_) ?_
    · simp only [List.length_cons] at hfuel
      omega
    · exact treeEntries_plug_congr (p := above) (treeEntries_join_fst ..)

end

section

open TreeZipper AvlNode BinaryTree AvlPiece

variable {δ : Type} {h : AvlHeap δ} {p above : AvlPath δ} {t : AvlShape δ} {c : NodeId}
  {f : Frame (AvlEntry δ × Int)} {e : AvlEntry δ} {fuel : Nat} {as bs : List (AvlPiece δ)}
  {up : Option NodeId} {key : Text}

/-- A new node as it comes out of `create_node_avltree`, in the tree as a leaf. -/
def leaf (e : AvlEntry δ) : AvlShape δ := join .left (e, 0) nil nil

theorem balanced_leaf : Balanced (leaf e) := by
  simp [leaf, join, TreeZipper.Balanced]

theorem Scene.leaf (as : List (AvlPiece δ))
    (hs : Scene h (as ++ AvlPiece.node e.id (nodeRecord .left up none none (e, 0)) :: bs)) :
    Scene h (as ++ tree up (Katcp.leaf e) :: bs) := by
  refine Scene.recut [_] [tree up (Katcp.leaf e)] hs ?_ ?_
  · simp [sceneIds, AvlPiece.ids, Katcp.leaf, join, treeIds, inorder]
  · have hx := hs.holds _ (List.mem_append_right _ (List.mem_cons_self ..))
    simpa [AvlPiece.Holds, Katcp.leaf, join, Linked, rootId] using hx

theorem Scene.dropNil (as : List (AvlPiece δ)) (hs : Scene h (as ++ tree up nil :: bs)) :
    Scene h (as ++ bs) :=
  Scene.recut [_] [] hs (by simp [sceneIds, AvlPiece.ids, treeIds, inorder]) (by simp)

theorem hang_spec (hs : Scene h [AvlPiece.node e.id (nodeRecord .left none none none (e, 0)),
      tree none (plug (f :: above) nil)]) :
    ∃ h', hang f.side h f.entry.1.id e.id = some (h', decide (f.entry.2 + f.side.sign = 0)) ∧
      Stores h' (plug above (join f.side
        (f.entry.1, if f.entry.2 + f.side.sign = 0 then 0 else f.entry.2) (leaf e) f.sibling)) := by
  have h0 := Scene.split [_] (Scene.zoom (p := above) (t := f.fill nil) [_] hs)
  rw [show rootId (f.fill nil) = some f.entry.1.id from rootId_join] at h0
  obtain ⟨h1, e1, s1⟩ := Scene.edit [_] h0 (setChild f.side (some e.id))
  obtain ⟨h2, e2, s2⟩ := Scene.edit [] s1 (setParent (some f.entry.1.id))
  have hf := s2.holds _ (List.mem_cons_of_mem _ (List.mem_cons_self ..))
  have hclose : ∀ {h' : AvlHeap δ} {d : Int}, Scene h'
      [AvlPiece.node e.id (nodeRecord .left (some f.entry.1.id) none none (e, 0)), AvlPiece.node f.entry.1.id
        (nodeRecord f.side (upper none above) (some e.id) (rootId f.sibling) (f.entry.1, d)),
      tree (some f.entry.1.id) nil, tree (some f.entry.1.id) f.sibling, path none (some f.entry.1.id) above] →
      Stores h' (plug above (join f.side (f.entry.1, d) (leaf e) f.sibling)) := by
    intro h' d hs'
    have hleaf : Scene h' [AvlPiece.tree (some f.entry.1.id) (leaf e), _, _, _] :=
      Scene.leaf [] (Scene.dropNil [_, _] hs')
    exact Stores.merge (Scene.front [_] hleaf)
  rw [nodeRecord_setChild] at s2 hf
  have hread : h2 f.entry.1.id = some _ := hf
  simp only [hang, Option.bind_eq_bind, e1, e2, Option.bind_some, hread, nodeRecord_balance]
  by_cases hd : f.entry.2 + f.side.sign = 0
  · obtain ⟨h3, e3, s3⟩ := Scene.edit [_] s2 (AvlNode.tilt f.side.sign)
    rw [nodeRecord_tilt, hd] at s3
    refine ⟨h3, by simp [hd, e3], ?_⟩
    rw [if_pos hd]
    exact hclose s3
  · refine ⟨h2, by simp [hd], ?_⟩
    rw [if_neg hd]
    exact hclose s2

/-- A path to where the key belongs. -/
structure Leads (p : AvlPath δ) (key : Text) : Prop where
  below : ∀ x ∈ before p, KeyLt x.1.key key
  above : ∀ x ∈ after p, KeyLt key x.1.key

/-- How the first loop ends: at the key itself, or with the new node in its place as a leaf. -/
def Descended (e : AvlEntry δ) (p : AvlPath δ) (t : AvlShape δ)
    (r : Option (Option (AvlHeap δ × Bool))) : Prop :=
  (r = some none ∧ ∃ x ∈ treeEntries t, x.key = e.key) ∨
    ∃ f above h', r = some (some (h', decide (f.entry.2 + f.side.sign = 0))) ∧
      plug (f :: above) nil = plug p t ∧ Leads (f :: above) e.key ∧
      Stores h' (plug above (join f.side
        (f.entry.1, if f.entry.2 + f.side.sign = 0 then 0 else f.entry.2) (leaf e) f.sibling))

theorem descended_into {r : Option (Option (AvlHeap δ × Bool))}
    (hs : Scene h [AvlPiece.node e.id (nodeRecord .left none none none (e, 0)), tree none (plug (f :: p) t)])
    (hlead : Leads (f :: p) e.key)
    (hr : r = match rootId t with
      | none => (hang f.side h f.entry.1.id e.id).map some
      | some c => descend e.id e.key fuel h c)
    (ih : ∀ c, rootId t = some c → Descended e (f :: p) t (descend e.id e.key fuel h c)) :
    Descended e (f :: p) t r := by
  subst hr
  cases t with
  | nil =>
    obtain ⟨h', he, hs'⟩ := hang_spec hs
    exact Or.inr ⟨f, p, h', by simp [rootId, he], rfl, hlead, hs'⟩
  | node x l r => exact ih _ rfl

theorem descend_spec (hs : Scene h [AvlPiece.node e.id (nodeRecord .left none none none (e, 0)),
      tree none (plug p t)]) (hr : rootId t = some c) (hsort : Ascending (treeEntries t))
    (hp : Leads p e.key) (hfuel : t.height < fuel) :
    Descended e p t (descend e.id e.key fuel h c) := by
  induction t generalizing p c fuel with
  | nil => cases hr
  | node x l r ihl ihr =>
    cases hr
    obtain ⟨fuel, rfl⟩ := Nat.exists_eq_succ_of_ne_zero (Nat.ne_zero_of_lt hfuel)
    simp only [height] at hfuel
    have h0 := Scene.split [_] (Scene.zoom (t := join .left x l r) [_] hs)
    have hx : h x.1.id = some _ := h0.holds _ (List.mem_cons_of_mem _ (List.mem_cons_self ..))
    have hkey : (nodeRecord .left (upper none p) (rootId l) (rootId r) x).nKey = x.1.key := rfl
    have hent := treeEntries_node (x := x) (l := l) (r := r)
    rw [hent] at hsort
    obtain ⟨hsl, hsr, hlr⟩ := List.pairwise_append.mp hsort
    obtain ⟨hxr, hsr⟩ := List.pairwise_cons.mp hsr
    have hmem : ∀ {y : AvlEntry δ × Int} {u : AvlShape δ}, y ∈ inorder u → y.1 ∈ treeEntries u :=
      fun hy => List.mem_map_of_mem hy
    cases hc : strcmp x.1.key e.key with
    | eq =>
      refine Or.inl ⟨?_, x.1, by simp [hent], eq_of_strcmp hc⟩
      simp [descend, hx, hkey, hc]
    | lt =>
      have hlead : Leads (⟨.right, x, l⟩ :: p) e.key := by
        refine ⟨fun y hy => ?_, by simpa [after] using hp.above⟩
        rcases List.mem_append.mp hy with hy | hy
        · exact hp.below y hy
        rcases List.mem_append.mp hy with hy | hy
        · exact (hlr _ (hmem hy) _ (List.mem_cons_self ..)).trans hc
        · cases List.mem_singleton.mp hy
          exact hc
      have hstep : descend e.id e.key (fuel + 1) h x.1.id = match rootId r with
          | none => (hang .right h x.1.id e.id).map some
          | some c => descend e.id e.key fuel h c := by
        rw [descend, hx]
        simp only [Option.bind_eq_bind, Option.bind_some, hkey, hc]
        rfl
      refine (descended_into hs hlead hstep fun c hr => ihr hs hr hsr hlead (by omega)).imp_left ?_
      rintro ⟨he, y, hy, hk⟩
      exact ⟨he, y, by simp [hent, hy], hk⟩
    | gt =>
      have hc' := keyLt_of_gt hc
      have hlead : Leads (⟨.left, x, r⟩ :: p) e.key := by
        refine ⟨by simpa [before] using hp.below, fun y hy => ?_⟩
        rcases List.mem_append.mp hy with hy | hy
        · rcases List.mem_cons.mp hy with rfl | hy
          · exact hc'
          · exact hc'.trans (hxr _ (hmem hy))
        · exact hp.above y hy
      have hstep : descend e.id e.key (fuel + 1) h x.1.id = match rootId l with
          | none => (hang .left h x.1.id e.id).map some
          | some c => descend e.id e.key fuel h c := by
        rw [descend, hx]
        simp only [Option.bind_eq_bind, Option.bind_some, hkey, hc]
        rfl
      refine (descended_into hs hlead hstep fun c hr => ihl hs hr hsl hlead (by omega)).imp_left ?_
      rintro ⟨he, y, hy, hk⟩
      exact ⟨he, y, by simp [hent, hy], hk⟩

theorem Scene.make {ps : List (AvlPiece δ)} {i : NodeId} {n : AvlNode δ} (hs : Scene h ps) (hi : h i = none) :
    Scene (Function.update h i (some n)) (AvlPiece.node i n :: ps) := by
  have hnot : i ∉ sceneIds ps := by
    intro hmem
    have := (hs.cells i).mpr hmem
    simp [hi] at this
  have hids : sceneIds (AvlPiece.node i n :: ps) = i :: sceneIds ps := rfl
  refine ⟨?_, by rw [hids]; exact List.nodup_cons.mpr ⟨hnot, hs.nodup⟩, ?_⟩
  · intro x hx
    rcases List.mem_cons.mp hx with rfl | hold
    · exact Function.update_self ..
    · refine (hs.holds x hold).congr fun j hj => Function.update_of_ne ?_ ..
      rintro rfl
      exact hnot (List.mem_flatMap.mpr ⟨x, hold, hj⟩)
  · intro j
    rw [hids, List.mem_cons, Function.update_apply, ← hs.cells]
    split
    next he => simp [he]
    next he => simp [he]

end

end Katcp
