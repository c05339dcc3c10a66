import ToySQL.Proof.Scan

/-!
# The shape of a table

What holds of every state of a table whose cache has room for all pages.

* `Reaches.leafChain`: no key is lost or duplicated in the leaf layer.
* `Reaches.treeShape`: the pages in use form a tree in which all leaves have the same
  depth, and every lookup ends in one of them.
-/

namespace ToySQL

open Program Page

namespace Pager

/-- The leaves and their keys. -/
structure LeafChain (s : Pager) (keys : List ℕ) : Prop where
  sorted : ∀ p ∈ s.leaves, (s.page p).keys.Pairwise (· ≤ ·)
  size : ∀ p ∈ s.leaves, (s.page p).numCells ≤ leafNodeMaxCells ∧
    (p ≠ rootPageNum → leafNodeLeftSplitCount ≤ (s.page p).numCells)
  chain : ∃ path : List ℕ, path.Perm s.leaves ∧ path.IsChain s.Successor ∧
    (∀ last ∈ path.getLast?, (s.page last).nextLeaf = 0) ∧
    ∀ q ∈ s.leaves, (∀ p ∈ s.leaves, ¬ s.Successor p q) ↔ path.head? = some q
  keys : s.rows.map Prod.fst = ↑keys

/-- The pages as a tree. -/
structure TreeShape (s : Pager) : Prop where
  once : ∀ q, 1 ≤ q → q < s.numPages →
    ∃! slot : ℕ × ℕ, s.Reachable slot.1 ∧ (s.page slot.1).isInternal = true ∧
      (s.page slot.1).children[slot.2]? = some q
  root : ∀ p, s.Reachable p → ¬ s.Child p rootPageNum
  node : ∀ p, s.Reachable p → (s.page p).isInternal = true →
    1 ≤ (s.page p).numKeys ∧ (s.page p).numKeys ≤ internalNodeMaxCells ∧
      (s.page p).rightChild ≠ invalidPageNum
  depth : ∃ depth, ∀ path : List ℕ, path.IsChain s.Child → path.head? = some rootPageNum →
    (∀ last ∈ path.getLast?, (s.page last).isLeaf = true) → path.length = depth + 1
  isRoot : ∀ p < s.numPages, (s.page p).isRoot = true ↔ p = rootPageNum
  find : ∀ key, ∃ depth, ∀ fuel ≥ depth, ∃ cursor s',
    (tableFind fuel key).run handler s = (.ok cursor, s') ∧
      s.Reachable cursor.pageNum ∧ (s.page cursor.pageNum).isLeaf = true

end Pager

variable {c fuel : ℕ} {uninit : Addr → Page} {ops : List Insertion} {s : Pager} {m : Mem}
    {lvl : ℕ → ℕ}
  {chain : List ℕ} {p q : ℕ}

/-! ## The leaf layer -/

/-- **No key is lost or duplicated in the leaf layer.** -/
theorem Reaches.leafChain (hc : filePagesNum ≤ c) (h : Reaches c uninit fuel ops s) :
    s.LeafChain (ops.map fun op => op.key.toNat) := by
  obtain ⟨m, lvl, chain, hg, hkeys⟩ := h.grown hc
  have hleaf : ∀ p ∈ s.leaves, s.page p = m.page p ∧ p < m.numPages ∧ lvl p = 0 ∧ p ∈ chain :=
    fun p hp => by
    have hp' := hg.mem_leaves.1 hp
    have hpn := hg.numPages ▸ hp'.1
    exact ⟨hg.page hp'.1, hpn, hp'.2, (hg.tree.leaves.mem p).2 ⟨hpn, hp'.2⟩⟩
  have hperm : chain.Perm s.leaves := by rw [hg.leaves]; exact hg.tree.leaves_perm.symm
  have hlink := hg.tree.leaves.linked
  refine ⟨fun p hp => ?_, fun p hp => ⟨?_, fun hp0 => ?_⟩, ⟨chain, hperm, ?_, fun last hlast => ?_,
    fun q hq => hg.first_iff (hperm.mem_iff.2 hq)⟩, ?_⟩
  · obtain ⟨hpage, -, -, hpc⟩ := hleaf p hp
    rw [hpage]; exact hg.tree.leaves.sorted p hpc
  · obtain ⟨hpage, hpn, hl, -⟩ := hleaf p hp
    rw [hpage]; exact (hg.tree.leaf_facts hpn hl).2.1
  · obtain ⟨hpage, -, -, hpc⟩ := hleaf p hp
    rw [hpage]; exact hg.tree.leaves.filled p hpc hp0
  · obtain ⟨first, rest, hch⟩ := List.exists_cons_of_ne_nil hlink.ne_nil
    -- page 0 is a leaf only if it is the first one
    have hzero := hg.tree.zero_not_mem hch
    rw [hch] at hlink hperm ⊢
    refine List.IsChain.imp_of_mem_tail_imp (fun p q hp hq hpq => ⟨?_, ?_⟩) hlink.isChain
    · rw [(hleaf p (hperm.mem_iff.1 hp)).1]
      exact hpq
    · rintro rfl
      exact hzero hq
  · rw [List.getLast?_eq_getLast_of_ne_nil hlink.ne_nil, Option.mem_some_iff] at hlast
    subst hlast
    rw [(hleaf _ (hperm.mem_iff.1 (List.getLast_mem _))).1]
    exact hlink.last
  · rw [hg.rows]; exact hkeys

theorem Reaches.leafChain_plain :
    (runTable filePagesNum 0 ((List.range 16).map plain)).2.LeafChain
      (((List.range 16).map plain).map fun op => op.key.toNat) :=
  Reaches.leafChain le_rfl (reaches_runTable (by decide +kernel))

/-! ## The tree -/

namespace Grown

/-- The children of a page are those of its node. -/
theorem child_iff (h : Grown c s m lvl chain) (hp : p < s.numPages) :
    s.Child p q ↔ q ∈ (m.page p).kids := by
  have hpm := h.numPages ▸ hp
  have hf := h.tree.shape.fits p hpm
  unfold Pager.Child
  by_cases hl : lvl p = 0
  · have hi : (s.page p).isInternal ≠ true := fun hi => (h.isInternal_iff hp).1 hi hl
    rw [kids_of_isLeaf (hf.leaf hl).1]
    exact ⟨fun hc => absurd hc.1 hi, fun hc => absurd hc (Multiset.notMem_zero q)⟩
  · have hi := (h.isInternal_iff hp).2 hl
    rw [(hf.node hl (Set.notMem_empty p)).kids, Multiset.mem_coe, ← h.page hp]
    exact ⟨fun hc => hc.2, fun hc => ⟨hi, hc⟩⟩

/-- A child is a page in use and not the root. -/
theorem child_lt (h : Grown c s m lvl chain) (hp : p < s.numPages) (hc : s.Child p q) :
    q < s.numPages ∧ q ≠ 0 := by
  rw [h.numPages]
  exact h.tree.shape.kid_lt (h.numPages ▸ hp) ((h.child_iff hp).1 hc)

/-- **The reachable pages are those in use.** -/
theorem reachable_iff (h : Grown c s m lvl chain) : s.Reachable p ↔ p < s.numPages := by
  constructor
  · intro hp
    induction hp with
    | refl => rw [h.numPages]; exact h.tree.shape.used_pos
    | tail _ hc ih => exact (h.child_lt ih hc).1
  · intro hp
    have hpm : p < m.numPages := h.numPages ▸ hp
    have hmono : Levelled.Child (Finset.range m.numPages) (fun p => (m.page p).kids) ≤ s.Child :=
      fun a b hab =>
      (h.child_iff (by rw [h.numPages]; exact Finset.mem_range.1 hab.1)).2 hab.2
    exact Relation.ReflTransGen.mono hmono _ _
      (h.tree.shape.levels.reach p (Finset.mem_range.2 hpm))

/-- A path down the tree, as a path of the flat memory. -/
theorem isChain_levelled (h : Grown c s m lvl chain) : ∀ (path : List ℕ) (p : ℕ), p < s.numPages →
    (p :: path).IsChain s.Child →
    (p :: path).IsChain (Levelled.Child (Finset.range m.numPages) fun p => (m.page p).kids) := by
  intro path
  induction path with
  | nil => intro p _ _; exact List.isChain_singleton p
  | cons q path ih =>
    intro p hp hc
    rw [List.isChain_cons_cons] at hc ⊢
    refine ⟨⟨Finset.mem_range.2 (h.numPages ▸ hp), (h.child_iff hp).1 hc.1⟩,
      ih q (h.child_lt hp hc.1).1 hc.2⟩

end Grown

/-- **The pages in use form a tree.** -/
theorem Reaches.treeShape (hc : filePagesNum ≤ c) (h : Reaches c uninit fuel ops s) :
    s.TreeShape := by
  obtain ⟨m, lvl, chain, hg, -⟩ := h.grown hc
  have hshape := hg.tree.shape
  have hnum := hg.numPages
  refine ⟨fun q hq1 hq => ?_, fun p hp hroot => ?_, fun p hp hi => ?_,
    ⟨lvl 0, fun path hpath hhead hlast => ?_⟩,
    fun p hp => ?_, fun key => ⟨lvl 0, fun fuel hfuel => ?_⟩⟩
  · rcases hshape.levels.mem_all.2 ⟨Finset.mem_range.2 (hnum ▸ hq), by omega⟩ with ⟨p, hp, hk⟩ | hk
    swap
    · exact absurd hk (Multiset.notMem_zero q)
    have hps : p < s.numPages := by rw [hnum]; exact Finset.mem_range.1 hp
    have hchild := (hg.child_iff hps).2 hk
    obtain ⟨i, hi⟩ := List.mem_iff_getElem?.1 hchild.2
    refine ⟨(p, i), ⟨hg.reachable_iff.2 hps, hchild.1, hi⟩, ?_⟩
    rintro ⟨p', i'⟩ ⟨hp', hint, hi'⟩
    have hps' := hg.reachable_iff.1 hp'
    have hk' := (hg.child_iff hps').1 ⟨hint, List.mem_of_getElem? hi'⟩
    obtain rfl : p' = p := hshape.levels.parent_unique (Finset.mem_range.2 (hnum ▸ hps')) hp hk' hk
    -- no child is listed twice
    have hnd := hshape.levels.nodup_kids hp
    rw [(hshape.fits p' (Finset.mem_range.1 hp)).node ((hg.isInternal_iff hps).1 hint)
      (Set.notMem_empty _) |>.kids,
      Multiset.coe_nodup, ← hg.page hps] at hnd
    have hlt : i' < (s.page p').children.length := (List.getElem?_eq_some_iff.1 hi').1
    obtain rfl : i' = i := (List.getElem?_inj hlt hnd).1 (hi'.trans hi.symm)
    rfl
  · exact (hg.child_lt (hg.reachable_iff.1 hp) hroot).2 rfl
  · have hnode := hg.node (hg.reachable_iff.1 hp) hi
    exact ⟨hnode.pos, hnode.le, hnode.right⟩
  · obtain ⟨rest, rfl⟩ : ∃ rest, path = 0 :: rest := by
      cases path with
      | nil => cases hhead
      | cons p rest =>
        exact ⟨rest, by rw [List.head?_cons] at hhead; rw [Option.some.inj hhead]; rfl⟩
    have h0 : 0 < s.numPages := by rw [hnum]; exact hshape.used_pos
    have hlen := hshape.levels.length_path (hg.isChain_levelled rest 0 h0 hpath)
    have hleaf := hlast _ (List.getLast?_eq_getLast_of_ne_nil (List.cons_ne_nil 0 rest))
    have hmem : ∀ (path : List ℕ) (p : ℕ), p < s.numPages → (p :: path).IsChain s.Child →
        (p :: path).getLast (List.cons_ne_nil _ _) < s.numPages := by
      intro path
      induction path with
      | nil => intro p hp _; exact hp
      | cons q path ih =>
        intro p hp hc
        rw [List.isChain_cons_cons] at hc
        rw [List.getLast_cons (List.cons_ne_nil _ _)]
        exact ih q (hg.child_lt hp hc.1).1 hc.2
    have hl0 := (hg.isLeaf_iff (hmem rest 0 h0 hpath)).1 hleaf
    rw [List.length_cons]
    omega
  · rw [hg.page hp]; exact (hshape.fits p (hnum ▸ hp)).root
  · obtain ⟨r, s', m', hrun, hflat, -⟩ := hg.sim.run_large (K := fun _ => True) hc
      (f := tableFind fuel key) (g := tableFind fuel key) fun _ => match_tableFind fuel key
    obtain ⟨hp, hl⟩ := hg.tree.leaf_spec key
    have hwp := hshape.wp_tableFind (K := fun _ => True) fuel key
      (Q := fun cursor _ => cursor.pageNum = descend m.page key (lvl 0) 0) (F := fun _ _ => False)
      (fun _ _ => trivial) (fun _ _ _ => rfl) (fun _ hlt => by omega)
    obtain ⟨cursor, m'', hflat', hpage⟩ := wp_total hwp
    rw [hflat'] at hflat
    obtain ⟨rfl, rfl⟩ := Prod.mk.inj hflat
    rw [Pager.strict_true] at hrun
    rw [← hpage] at hp hl
    have hps : cursor.pageNum < s.numPages := by rw [hnum]; exact hp
    exact ⟨cursor, s', hrun, hg.reachable_iff.2 hps, (hg.isLeaf_iff hps).2 hl⟩

theorem Reaches.treeShape_plain :
    (runTable filePagesNum 0 ((List.range 16).map plain)).2.TreeShape :=
  Reaches.treeShape le_rfl (reaches_runTable (by decide +kernel))

end ToySQL
