import ToySQL.Proof.MaxKey
import ToySQL.Proof.NodeSplit
import ToySQL.Proof.Reach
import ToySQL.Proof.Recount

/-!
# Insertion into an internal node with room

* `OrderedNode.insertsChild_of`: the list of the children and their last keys after one of the
  three ways in which a child is put in.
* `insertsChild`: `internal_node_insert` puts the child in its place, and nothing else changes.
-/

namespace ToySQL

open Program Page

/-- There is one place for an element in an ordered list. -/
theorem eq_insertIdx_of_perm {α : Type} {f : α → ℕ} {l l' : List α} {x : α} (hp : l'.Perm (x :: l))
    (hs : l.Pairwise fun a b => f a < f b) (hs' : l'.Pairwise fun a b => f a < f b) :
    l' = l.insertIdx (l.countP fun a => f a < f x) x := by
  obtain ⟨front, back, rfl⟩ := List.append_of_mem (hp.mem_iff.2 (List.mem_cons_self ..))
  obtain ⟨hfront, hback, hcross⟩ := List.pairwise_append.1 hs'
  obtain ⟨hx, hback⟩ := List.pairwise_cons.1 hback
  have hrest : (front ++ back).Pairwise fun a b => f a < f b :=
    List.pairwise_append.2 ⟨hfront, hback,
      fun a ha b hb => hcross a ha b (List.mem_cons_of_mem _ hb)⟩
  have heq : front ++ back = l :=
    List.Perm.eq_of_pairwise (fun a b _ _ hab hba => absurd hab (lt_asymm hba)) hrest hs
      (List.perm_middle.symm.trans hp).cons_inv
  rw [← heq]
  have hcount : (front ++ back).countP (fun a => f a < f x) = front.length := by
    have hbefore : ∀ a ∈ front, decide (f a < f x) = true :=
      fun a ha => decide_eq_true (hcross a ha x (List.mem_cons_self ..))
    have hbehind : ∀ b ∈ back, ¬ decide (f b < f x) = true :=
      fun b hb => by simpa using (hx b hb).le
    rw [List.countP_append, List.countP_eq_length.2 hbefore, List.countP_eq_zero.2 hbehind,
      Nat.add_zero]
  rw [hcount, insertIdx_eq_append _ _ _ (by simp), List.take_left, List.drop_left]

/-- The header fields that no child is stored in. -/
theorem Page.AddChild.sameHeader {a a' : Page} {c cmax rmax : ℕ} (h : AddChild a c cmax rmax a') :
    a'.SameHeader a [6, 10] := by
  cases h with
  | first _ => exact (SameHeader.store_header .rightChild c).mono (by simp)
  | append _ _ _ hh _ _ _ => exact hh
  | place _ _ _ hh _ _ => exact hh.mono (by simp)

/-- The right child changes only to the new child. -/
theorem Page.AddChild.rightChild_iff {a a' : Page} {c cmax rmax : ℕ} (h : AddChild a c cmax rmax a')
    (hr : a.rightChild ≠ invalidPageNum) (hne : a.rightChild ≠ c) :
    a'.rightChild = c ↔ rmax < cmax := by
  cases h with
  | first he => exact absurd he hr
  | append _ _ hlt _ _ hright _ => exact iff_of_true hright hlt
  | place _ _ hle hh _ _ => exact iff_of_false (by rwa [hh.rightChild (by simp)]) (not_lt.2 hle)

variable {s s' : Pager} {p c m rmax : ℕ} {maxs l : List ℕ}

namespace OrderedNode

theorem isLeaf (h : OrderedNode s p maxs) : (s.page p).isLeaf = false :=
  not_isLeaf_of_isInternal h.internal

/-- The last keys of the children, one by one. -/
theorem maxs_lt (h : OrderedNode s p maxs) {i : ℕ} (hi : i ≤ (s.page p).numKeys) :
    ∃ k, maxs[i]? = some k ∧ s.MaxKey ((s.page p).childAt i) k := by
  have hlt : i < maxs.length := by
    rw [h.length]
    omega
  exact ⟨_, List.getElem?_eq_getElem hlt, h.maxKey i _ (List.getElem?_eq_getElem hlt)⟩

theorem child_lt (hs : s.Wf) (h : OrderedNode s p maxs) {i : ℕ} (hi : i ≤ (s.page p).numKeys) :
    (s.page p).childAt i < filePagesNum := by
  obtain ⟨k, -, hk⟩ := h.maxs_lt hi
  exact ((Pager.maxKey_iff_path hs).1 hk).1

/-- What a path through the node itself ends with. -/
theorem last_of_mem (h : OrderedNode s p maxs) {q k : ℕ} (hpath : MaxPath s.page q l k)
    (hmem : p ∈ q :: l) :
    ((s.page p).numKeys ≠ 0 → maxs[(s.page p).numKeys - 1]? = some k) ∧
      ((s.page p).numKeys = 0 → ∃ l', MaxPath s.page (s.page p).rightChild l' k ∧
        l'.length < l.length) := by
  obtain ⟨h1, h2⟩ := hpath.of_mem hmem h.isLeaf
  refine ⟨fun h0 => ?_, h2⟩
  rw [h1 h0]
  exact h.sep _ (by omega)

/-- The largest key below the right child is the last of the list. -/
theorem right_eq (hs : s.Wf) (h : OrderedNode s p maxs) {k : ℕ}
    (hpath : MaxPath s.page (s.page p).rightChild l k) :
    maxs[(s.page p).numKeys]? = some k := by
  obtain ⟨k', hget, hk'⟩ := h.maxs_lt le_rfl
  rw [childAt_numKeys] at hk'
  obtain ⟨-, l', hpath'⟩ := (Pager.maxKey_iff_path hs).1 hk'
  obtain ⟨-, rfl⟩ := hpath.unique hpath'
  exact hget

/-- The right child does not lead back to the node. -/
theorem not_mem_right (hs : s.Wf) (h : OrderedNode s p maxs) {k : ℕ}
    (hpath : MaxPath s.page (s.page p).rightChild l k) :
    p ∉ (s.page p).rightChild :: l := by
  intro hmem
  obtain ⟨hkeys, hnone⟩ := h.last_of_mem hpath hmem
  by_cases h0 : (s.page p).numKeys = 0
  · obtain ⟨l', hpath', hlt⟩ := hnone h0
    rw [(hpath.unique hpath').1] at hlt
    exact absurd hlt (lt_irrefl _)
  · have hlt := rel_of_getElem? h.ascending (hkeys h0) (h.right_eq hs hpath) (by omega)
    exact absurd hlt (lt_irrefl _)

/-- A child with a last key of its own does not lead to the node. -/
theorem not_mem_new (hs : s.Wf) (h : OrderedNode s p maxs) (hne : m ∉ maxs)
    (hpath : MaxPath s.page c l m) : p ∉ c :: l := by
  intro hmem
  obtain ⟨hkeys, hnone⟩ := h.last_of_mem hpath hmem
  apply hne
  by_cases h0 : (s.page p).numKeys = 0
  · obtain ⟨l', hpath', -⟩ := hnone h0
    exact List.mem_of_getElem? (h.right_eq hs hpath')
  · exact List.mem_of_getElem? (hkeys h0)

/-- The children with their last keys. -/
theorem holds (h : OrderedNode s p maxs) : Holds (s.page p) ((s.page p).children.zip maxs) := by
  have hlen : (s.page p).children.length = (s.page p).numKeys + 1 := by
    rw [children_eq, List.length_map, List.length_range]
  have hget : ∀ i ≤ (s.page p).numKeys, ∀ k, maxs[i]? = some k →
      ((s.page p).children.zip maxs)[i]? = some ((s.page p).childAt i, k) := by
    intro i hi k hk
    exact List.getElem?_zip_eq_some.2 ⟨getElem?_children.2 ⟨hi, rfl⟩, hk⟩
  refine ⟨by rw [List.length_zip, hlen, h.length, min_self], fun i hi => ?_, ?_⟩
  · rw [hget i hi.le _ (h.sep i hi), childAt_of_lt hi]
    rfl
  · obtain ⟨k, hk, -⟩ := h.maxs_lt le_rfl
    exact ⟨k, by rw [hget _ le_rfl k hk, childAt_numKeys]⟩

/-- A child and its last key: the path to the key does not go through the node. -/
theorem path_of_mem (hs : s.Wf) (h : OrderedNode s p maxs) {e : ℕ × ℕ}
    (he : e ∈ (s.page p).children.zip maxs) :
    e.1 < filePagesNum ∧ ∃ l, MaxPath s.page e.1 l e.2 ∧ p ∉ e.1 :: l := by
  obtain ⟨i, hi⟩ := List.getElem?_of_mem he
  obtain ⟨hle, hchild, -⟩ := h.holds.getElem? hi
  have hmax := h.maxKey i e.2 (List.getElem?_zip_eq_some.1 hi).2
  rw [← hchild] at hmax
  obtain ⟨hlt, l, hpath⟩ := (Pager.maxKey_iff_path hs).1 hmax
  refine ⟨hlt, l, hpath, ?_⟩
  rcases hle.lt_or_eq with hin | rfl
  · exact h.acyclic i hin _ (hchild ▸ hpath.visits)
  · rw [childAt_numKeys] at hchild
    rw [hchild] at hpath ⊢
    exact h.not_mem_right hs hpath

/-- **The node after a child was put in**, one way or another. -/
theorem insertsChild_of (hs : s.Wf) (hs' : s'.Wf) (h : OrderedNode s p maxs)
    (hroom : (s.page p).numKeys < 3)
    (hc : s.MaxKey c m) (hne : m ∉ maxs) (hr : s.MaxKey (s.page p).rightChild rmax)
    (ha : AddChild (s.page p) c m rmax (s'.page p))
    (hothers : ∀ q < filePagesNum, q ≠ p → s'.page q = s.page q) :
    InsertsChild s s' p c m maxs := by
  obtain ⟨hclt, lc, hcpath⟩ := (Pager.maxKey_iff_path hs).1 hc
  obtain ⟨hrlt, lr, hrpath⟩ := (Pager.maxKey_iff_path hs).1 hr
  have hlast := h.right_eq hs hrpath
  have hzip : ((s.page p).children.zip maxs)[(s.page p).numKeys]? =
      some ((s.page p).rightChild, rmax) :=
    List.getElem?_zip_eq_some.2 ⟨getElem?_children.2 ⟨le_rfl, childAt_numKeys⟩, hlast⟩
  have hlen : (s.page p).children.length = maxs.length := by
    rw [children_eq, List.length_map, List.length_range, h.length]
  have hsnd : ((s.page p).children.zip maxs).map Prod.snd = maxs := List.map_snd_zip hlen.ge
  have hfst : ((s.page p).children.zip maxs).map Prod.fst = (s.page p).children :=
    List.map_fst_zip hlen.le
  have hsorted : ((s.page p).children.zip maxs).Pairwise fun e e' => e.2 < e'.2 := by
    rw [← List.pairwise_map, hsnd]
    exact h.ascending
  -- the new list of the children
  obtain ⟨L, hL, hperm, hsorted'⟩ := ha.holds h.holds h.right hroom hzip hsorted fun e he heq =>
    hne (heq ▸ hsnd ▸ List.mem_map_of_mem he)
  have hcount : ((s.page p).children.zip maxs).countP (fun e => e.2 < m) = maxs.countP (· < m) := by
    conv_rhs => rw [← hsnd, List.countP_map]
    rfl
  have hins := eq_insertIdx_of_perm (f := Prod.snd) hperm hsorted hsorted'
  rw [hcount] at hins
  have hchildren :
      (s'.page p).children = (s.page p).children.insertIdx (maxs.countP (· < m)) c := by
    rw [hL.children, hins, List.map_insertIdx, hfst]
  have hmaxs : L.map Prod.snd = maxs.insertIdx (maxs.countP (· < m)) m := by
    rw [hins, List.map_insertIdx, hsnd]
  have hget : ∀ {i k : ℕ}, (maxs.insertIdx (maxs.countP (· < m)) m)[i]? = some k →
      ∃ q, L[i]? = some (q, k) := by
    intro i k hk
    rw [← hmaxs, List.getElem?_map] at hk
    obtain ⟨e, he, rfl⟩ := Option.map_eq_some_iff.1 hk
    exact ⟨e.1, he⟩
  -- the paths below the children are as before
  have hpath : ∀ e ∈ L, e.1 < filePagesNum ∧ ∃ l, MaxPath s'.page e.1 l e.2 ∧ p ∉ e.1 :: l := by
    intro e he
    have hold : e.1 < filePagesNum ∧ ∃ l, MaxPath s.page e.1 l e.2 ∧ p ∉ e.1 :: l := by
      rcases List.mem_cons.1 (hperm.mem_iff.1 he) with rfl | he
      · exact ⟨hclt, lc, hcpath, h.not_mem_new hs hne hcpath⟩
      · exact h.path_of_mem hs he
    obtain ⟨hlt, l, hpath, hnot⟩ := hold
    refine ⟨hlt, l, hpath.congr fun q hq => ?_, hnot⟩
    have hqlt : q < filePagesNum := by
      rcases List.mem_cons.1 hq with rfl | hq
      · exact hlt
      · exact hpath.lt q hq
    exact hothers q hqlt fun heq => hnot (heq ▸ hq)
  have hn := ha.numKeys h.right
  have hcne : (s.page p).rightChild ≠ c := by
    intro heq
    rw [heq] at hrpath
    obtain ⟨-, rfl⟩ := hcpath.unique hrpath
    exact hne (List.mem_of_getElem? hlast)
  have hright := ha.rightChild_iff h.right hcne
  refine ⟨hn, hchildren, ?_,
    ⟨h.lt, ?_, ?_, ?_, fun i k hk => ?_, fun i hi => ?_, ?_, fun i hi l hl => ?_⟩,
    ha.sameHeader.type (by simp), ha.sameHeader.isRoot (by simp),
    ha.sameHeader.parent (by simp), hothers⟩
  · rw [hright]
    constructor
    · exact fun hlt => ⟨rmax, hr, hlt⟩
    · rintro ⟨k, hk, hlt⟩
      obtain ⟨-, l, hkpath⟩ := (Pager.maxKey_iff_path hs).1 hk
      rwa [(hkpath.unique hrpath).2] at hlt
  · unfold isInternal
    rw [ha.sameHeader.type (by simp)]
    exact h.internal
  · obtain ⟨last, hlast'⟩ := hL.right
    have hlt := (hpath _ (List.mem_of_getElem? hlast')).1
    exact (hlt.trans (by decide)).ne
  · rw [← hmaxs, List.length_map]
    exact hL.length
  · obtain ⟨q, hq⟩ := hget hk
    obtain ⟨-, hchild, -⟩ := hL.getElem? hq
    rw [← hchild]
    obtain ⟨hlt, l, hl, -⟩ := hpath _ (List.mem_of_getElem? hq)
    exact (Pager.maxKey_iff_path hs').2 ⟨hlt, l, hl⟩
  · rw [← hmaxs, List.getElem?_map, hL.cell i hi]
    rfl
  · rw [← hmaxs, List.pairwise_map]
    exact hsorted'
  · -- the visited pages are those of the path
    have hcell := hL.cell i hi
    obtain ⟨-, l', hl', hnot⟩ := hpath _ (List.mem_of_getElem? hcell)
    rw [childAt_of_lt hi] at hl
    rwa [hl.unique hl'.visits]

end OrderedNode

/-- **Insertion in flat memory**, where the pages on the way to the two last keys are at hand. -/
theorem Mem.wp_internalNodeInsertStep_ordered {fuel : ℕ} {lc lr : List ℕ} (hs : s.Wf)
    (h : OrderedNode s p maxs)
    (hroom : (s.page p).numKeys < 3) (hslot : (s.page p).child (s.page p).numKeys ≠ invalidPageNum)
    (hclt : c < filePagesNum) (hc : MaxPath s.page c lc m)
    (hrlt : (s.page p).rightChild < filePagesNum)
    (hr : MaxPath s.page (s.page p).rightChild lr rmax) (hfc : lc.length ≤ fuel)
    (hfr : lr.length ≤ fuel) :
    wp (Mem.handler (fun _ => True) (· ∈ p :: ((c :: lc) ++ (s.page p).rightChild :: lr)))
      (internalNodeInsertStep (fun _ _ => fault .noReturn) fuel p c)
      (fun _ m' => ∃ a, AddChild (s.page p) c m rmax a ∧ m'.page = Function.update s.page p a)
        (fun _ _ => False) s.recount.flat := by
  have hcached : ∀ {q : ℕ}, q < filePagesNum → s.recount.flat.cached q = true :=
    fun hq => decide_eq_true hq
  have hrnot := h.not_mem_right hs hr
  refine Mem.wp_internalNodeInsertStep_max (m := s.recount.flat) (p := p) (c := c) hroom ?_ ?_
    (fun _ => ?_) (hcached h.lt)
    (hcached hclt) (fun _ => hcached hrlt) (fun hR => ?_) (fun _ b R hR => ?_) hc.key_lt hr.key_lt
    (hclt.trans (by decide))
    (fun _ _ => trivial) (fun _ _ hv => absurd hv hslot) (fun i hi => ?_) fun a ha _ => ⟨a, ha, rfl⟩
  · exact List.mem_cons_self ..
  · simp
  · exact List.mem_cons_of_mem _ (List.mem_append_right _ (List.mem_cons_self ..))
  · refine Mem.wp_getNodeMaxKey_path (m := s.recount.flat) hc (fun q hq => ?_)
      (fun q hq => hcached (hc.lt q hq)) hR fuel hfc
    exact List.mem_cons_of_mem _ (List.mem_append_left _ (List.mem_cons_of_mem _ hq))
  · -- the change of the node does not reach the path below the right child
    have hpath : MaxPath (s.recount.flat.set p b).page (s.page p).rightChild lr rmax := by
      refine hr.congr fun q hq => ?_
      exact Mem.page_set_ne _ _ (ne_of_mem_of_not_mem hq hrnot)
    refine Mem.wp_getNodeMaxKey_path hpath (fun q hq => ?_) (fun q hq => hcached (hr.lt q hq))
      hR fuel hfr
    exact List.mem_cons_of_mem _ (List.mem_append_right _ (List.mem_cons_of_mem _ hq))
  · have hi : i < (s.page p).numKeys := hi
    have hlt := h.child_lt hs hi.le
    rw [childAt_of_lt hi] at hlt
    exact (hlt.trans (by decide)).ne

/-- **Ordered insertion of a child**, with a cache for the pages the call gets. -/
theorem insertsChild {lc lr : List ℕ} (hs : s.Wf) (h : OrderedNode s p maxs)
    (hroom : (s.page p).numKeys < internalNodeMaxCells)
    (hslot : (s.page p).child (s.page p).numKeys ≠ invalidPageNum) (hc : s.MaxKey c m)
    (hne : m ∉ maxs)
    (hcl : MaxVisits s.page c lc) (hrl : MaxVisits s.page (s.page p).rightChild lr)
    (hcache : (p :: (lc ++ lr)).toFinset.card ≤ s.cache.maxPages) :
    ∃ bound, ∀ fuel ≥ bound, ∃ s', (internalNodeInsert fuel p c).run Pager.handler s =
      (.ok (), s') ∧
      InsertsChild s s' p c m maxs := by
  obtain ⟨hclt, lc', hcpath⟩ := (Pager.maxKey_iff_path hs).1 hc
  obtain ⟨rmax, -, hr⟩ := h.maxs_lt le_rfl
  rw [childAt_numKeys] at hr
  obtain ⟨hrlt, lr', hrpath⟩ := (Pager.maxKey_iff_path hs).1 hr
  obtain rfl := hcl.unique hcpath.visits
  obtain rfl := hrl.unique hrpath.visits
  -- the node and both ways down fit the cache, so none of them is evicted
  have hfits : Fits (· ∈ p :: ((c :: lc') ++ (s.page p).rightChild :: lr')) s.cache.maxPages := by
    refine ⟨fun q hq => ?_, _, fun q => List.mem_toFinset.2, le_max_of_le_right hcache⟩
    simp only [List.mem_cons, List.mem_append] at hq
    rcases hq with rfl | (rfl | hq) | rfl | hq
    · exact h.lt
    · exact hclt
    · exact hcpath.lt q hq
    · exact hrlt
    · exact hrpath.lt q hq
  refine ⟨max lc'.length lr'.length, fun fuel hfuel => ?_⟩
  obtain ⟨hfc, hfr⟩ := max_le_iff.1 hfuel
  have hnoSplit : ∀ _ _ : ℕ, Only Pager.NoAlloc (fault .noReturn : Prog Addr Unit) :=
    fun _ _ => trivial
  have honly := only_internalNodeInsertStep hnoSplit fuel p c
  obtain ⟨_, s', hrun, hs', -, m', ⟨a, ha, hm'⟩, hpage⟩ :=
    hs.wp_flat hfits honly (extends_internalNodeInsert fuel p c)
    (fun _ => match_internalNodeInsertStep (fun _ _ _ => match_fault _) _ _ _)
    (Mem.wp_internalNodeInsertStep_ordered hs h hroom hslot hclt hcpath hrlt hrpath hfc hfr)
  rw [hm'] at hpage
  refine ⟨s', hrun, h.insertsChild_of hs hs' hroom hc hne hr ?_ fun q hq hqp => ?_⟩
  · rwa [hpage p h.lt, Function.update_self]
  · rw [hpage q hq, Function.update_of_ne hqp]

/-- A root with the last keys 10 and 30, and a leaf with the key 20. -/
def gapTable : Pager := stored [nodeOf 0 2 [(1, 10)], oneKey 0 10, oneKey 0 30, oneKey 0 20]

theorem gapTable_wf : gapTable.Wf := (stored_counted _).wf

theorem gapTable_leaf : ∀ q ∈ [(1, 10), (2, 30), (3, 20)], (gapTable.page q.1).isLeaf = true ∧
    (gapTable.page q.1).numCells = 1 ∧
    (gapTable.page q.1).key 0 = q.2 := by decide +kernel

/-- The last keys of the leaves. -/
theorem gapTable_maxKey {q k : ℕ} (hq : (q, k) ∈ [(1, 10), (2, 30), (3, 20)]) :
    gapTable.MaxKey q k ∧ MaxVisits gapTable.page q [q] := by
  obtain ⟨hl, hn, hk⟩ := gapTable_leaf _ hq
  have hlt : q < filePagesNum := by
    simp only [List.mem_cons, Prod.mk.injEq, List.not_mem_nil, or_false] at hq
    unfold filePagesNum
    omega
  have hpath :
      MaxPath gapTable.page q [] ((gapTable.page q).key ((gapTable.page q).numCells - 1)) :=
    .leaf hl (by rw [hn]; decide) (by rw [hn]; decide)
  rw [hn, hk] at hpath
  exact ⟨(Pager.maxKey_iff_path gapTable_wf).2 ⟨hlt, [], hpath⟩, .last (Or.inl hl)⟩

theorem gapTable_ordered : OrderedNode gapTable 0 [10, 30] := by
  have hroot : (gapTable.page 0).isInternal = true ∧ (gapTable.page 0).numKeys = 1 ∧
      (gapTable.page 0).rightChild = 2 ∧
      (gapTable.page 0).childAt 0 = 1 ∧ (gapTable.page 0).childAt 1 = 2 ∧
        (gapTable.page 0).sep 0 = 10 := by decide +kernel
  obtain ⟨hi, hn, hr, hc0, hc1, hsep⟩ := hroot
  refine ⟨by decide, hi, by rw [hr]; decide, by rw [hn]; rfl, fun i k hk => ?_,
    fun i hi => ?_, by decide, fun i hi l hl => ?_⟩
  · match i with
    | 0 => rw [hc0, ← Option.some.inj hk]; exact (gapTable_maxKey (by decide)).1
    | 1 => rw [hc1, ← Option.some.inj hk]; exact (gapTable_maxKey (by decide)).1
    | i + 2 => cases hk
  · obtain rfl : i = 0 := by omega
    rw [hsep]
    rfl
  · obtain rfl : i = 0 := by omega
    rw [hc0] at hl
    rw [hl.unique (gapTable_maxKey (k := 10) (by decide)).2]
    decide

theorem insertsChild_gapTable : ∃ bound, ∀ fuel ≥ bound, ∃ s',
    (internalNodeInsert fuel 0 3).run Pager.handler gapTable = (.ok (), s') ∧
      InsertsChild gapTable s' 0 3 20 [10, 30] := by
  obtain ⟨hmax, hvisits⟩ := gapTable_maxKey (q := 3) (k := 20) (by decide)
  have hright : (gapTable.page 0).rightChild = 2 := by decide +kernel
  have hvisitsRight := (gapTable_maxKey (q := 2) (k := 30) (by decide)).2
  rw [← hright] at hvisitsRight
  refine insertsChild gapTable_wf gapTable_ordered (by decide +kernel) (by decide +kernel) hmax
    (by decide) hvisits hvisitsRight ?_
  rw [hright]
  exact (List.toFinset_card_le _).trans (show 3 ≤ filePagesNum by decide)

end ToySQL
