import ToySQL.Proof.Leaves

/-!
# Insertion into the table, in flat memory

`Tree` puts the shape of the tree and the leaf layer together. `leaf_node_insert` keeps
it, wherever it comes back:

* `Tree.insert_room`: the leaf has room.
* `Tree.insert_root`: the full leaf is the root. It becomes the first child of a new
  root.
* `Tree.insert_cut`: the full leaf is below the root. Its upper half is on its way into
  the parent.
* `Tree.wp_leafNodeInsert_within`: all of them. `InsertsRow` is what happens to the rows.
-/

namespace ToySQL

open Program

namespace Mem

/-- The leaf pages. -/
def leaves (m : Mem) : List ℕ := (List.range m.numPages).filter fun p => (m.page p).isLeaf

/-- The rows of all leaves. -/
def rows (m : Mem) : Multiset (ℕ × Bytes rowSize) := m.rowsOn m.leaves

/-- The keys of the pages of a list, in order. -/
def keysOn (m : Mem) (chain : List ℕ) : List ℕ := chain.flatMap fun p => (m.page p).keys

end Mem

/-- The pages in use form a tree, and its leaves a chain. -/
structure Tree (T : ℕ → Prop) (m : Mem) (lvl : ℕ → ℕ) (chain : List ℕ) : Prop where
  tight : m.Tight
  shape : Forest T m m.numPages lvl 0 ∅ ∅
  leaves : LeafLayer m m.numPages lvl chain

/-- A leaf replaced by one with the same header, but for the count and the link. -/
theorem PageFits.leaf_replace {used : ℕ} {lvl : ℕ → ℕ} {stale : Set ℕ} {p : ℕ} {pg a : Page}
    (hf : PageFits used lvl stale ∅ p pg) (hl : lvl p = 0) (ha : a.SameHeader pg [6, 10])
    (hn : a.numCells ≤ 15) : PageFits used lvl stale ∅ p a where
  leaf := fun h => ⟨(ha.isLeaf (by simp)).trans (hf.leaf h).1, hn⟩
  internal := fun h => absurd hl h
  node := fun h => absurd hl h
  empty := fun h => absurd h (Set.notMem_empty p)
  root := by rw [ha.isRoot (by simp)]; exact hf.root
  parent := by rw [ha.parent (by simp)]; exact hf.parent
  slots := fun h => absurd hl h

/-- What insertion does to the keys in the order of the leaves: one more, in the leaf `p`. -/
def Tree.InsertsKey (m : Mem) (chain : List ℕ) (p key : ℕ) (m' : Mem) (chain' : List ℕ) : Prop :=
  ∃ l₁ l₂, chain = l₁ ++ p :: l₂ ∧ p ∉ l₁ ++ l₂ ∧
    m'.keysOn chain' =
      m.keysOn l₁ ++ ((m.page p).keys.insertIdx ((m.page p).findCell key) key ++ m.keysOn l₂)

namespace Mem

theorem keysOn_cons (m : Mem) (p : ℕ) (l : List ℕ) : m.keysOn (p :: l) = (m.page p).keys ++
    m.keysOn l := rfl

theorem keysOn_middle (m : Mem) (l₁ l₂ : List ℕ) (p : ℕ) :
    m.keysOn (l₁ ++ p :: l₂) = m.keysOn l₁ ++ ((m.page p).keys ++ m.keysOn l₂) :=
  List.flatMap_append

/-- The keys of a chain do not depend on the parent fields. -/
theorem keysOn_congr {m m' : Mem} {chain : List ℕ}
    (h : ∀ q ∈ chain, (m'.page q).erase = (m.page q).erase) :
    m'.keysOn chain = m.keysOn chain := List.flatMap_congr fun q hq => Page.keys_of_erase (h q hq)

end Mem

namespace Tree

open Page Mem

variable {K T : ℕ → Prop} [DecidablePred K] [DecidablePred T] {m : Mem} {lvl : ℕ → ℕ}
  {chain : List ℕ} {p c key : ℕ} {row : Row} {a l r : Page} {F : Fault → Mem → Prop}
  {Q : Unit → Mem → Prop}

section

omit [DecidablePred T]

theorem isLeaf_iff (h : Tree T m lvl chain) (hp : p < m.numPages) :
    (m.page p).isLeaf = true ↔ lvl p = 0 := by
  have hf := h.shape.fits p hp
  refine ⟨fun hl => ?_, fun hl => (hf.leaf hl).1⟩
  by_contra h0
  have := not_isLeaf_of_isInternal (hf.internal h0)
  rw [hl] at this
  cases this

/-- The chain has every leaf once. -/
theorem leaves_perm (h : Tree T m lvl chain) : m.leaves.Perm chain := by
  refine (List.perm_ext_iff_of_nodup (List.nodup_range.filter _) h.leaves.nodup).2 fun p => ?_
  rw [List.mem_filter, List.mem_range, h.leaves.mem]
  exact and_congr_right fun hp => h.isLeaf_iff hp

/-- The rows of the table are those of the chain. -/
theorem rows_eq (h : Tree T m lvl chain) : m.rows = m.rowsOn chain :=
  Multiset.coe_eq_coe.2 (h.leaves_perm.flatMap_right _)

/-- The root is above all other pages. -/
theorem lt_root (h : Tree T m lvl chain) (hp : p < m.numPages) (hp0 : p ≠ 0) : lvl p < lvl 0 :=
  h.shape.levels.lt_root (fun _ hc => absurd hc (Multiset.notMem_zero _))
    (Finset.mem_range.2 hp) hp0

/-- A root leaf is the only page. -/
theorem numPages_of_leaf (h : Tree T m lvl chain) (hl : lvl 0 = 0) : m.numPages = 1 := by
  have h0 := h.shape.used_pos
  by_contra hne
  have := h.lt_root (p := 1) (by omega) (by omega)
  omega

/-- A table of one leaf has a chain of one. -/
theorem chain_of_leaf (h : Tree T m lvl chain) (hl : lvl 0 = 0) : chain = [0] := by
  have h1 := h.numPages_of_leaf hl
  have hmem : ∀ p, p ∈ chain ↔ p = 0 := fun p => by
    rw [h.leaves.mem, h1]
    exact ⟨fun hp => by omega, fun hp => by subst hp; exact ⟨by omega, hl⟩⟩
  have hperm : chain.Perm [0] :=
    (List.perm_ext_iff_of_nodup h.leaves.nodup (by simp)).2 fun p => by rw [hmem]; simp
  exact List.perm_singleton.1 hperm

/-- What a page of level 0 is. -/
theorem leaf_facts (h : Tree T m lvl chain) (hp : p < m.numPages) (hl : lvl p = 0) :
    (m.page p).isLeaf = true ∧ (m.page p).numCells ≤ 15 ∧ (m.page p).keys.Pairwise (· ≤ ·) :=
  ⟨((h.shape.fits p hp).leaf hl).1, ((h.shape.fits p hp).leaf hl).2,
    h.leaves.sorted p ((h.leaves.mem p).2 ⟨hp, hl⟩)⟩

/-! ## A leaf with room -/

/-- **A leaf with room takes a row.** -/
theorem insert_room (h : Tree T m lvl chain) (hp : p < m.numPages) (hl : lvl p = 0)
    (hn : (m.page p).numCells < 15) {x : ℕ × Bytes rowSize}
    (ha : Inserted (m.page p) ((m.page p).findCell x.1) x a) :
    Tree T (m.set p a) lvl chain ∧ (m.set p a).rows = x ::ₘ m.rows ∧
      InsertsKey m chain p x.1 (m.set p a) chain := by
  obtain ⟨hleaf, -, hs⟩ := h.leaf_facts hp hl
  have hle := findCell_le (m.page p) x.1
  have hcells := ha.numCells hle
  have hkeys : a.keys = (m.page p).keys.insertIdx ((m.page p).findCell x.1) x.1 := by
    rw [← keys_insertIdx, ← ha.rows]; rfl
  have hpage : (m.set p a).page p = a := page_set_self _ _ _
  have htree : Tree T (m.set p a) lvl chain := by
    refine ⟨h.tight.set p a, ?_, ?_⟩
    · refine h.shape.set hp ?_ (fun d hd => ?_) ?_ (fun _ _ => id) fun _ _ => Iff.rfl
      · rw [kids_of_isLeaf hleaf, kids_of_isLeaf ((ha.header.isLeaf (by simp)).trans hleaf)]
      · rw [kids_of_isLeaf ((ha.header.isLeaf (by simp)).trans hleaf)] at hd
        exact absurd hd (Multiset.notMem_zero d)
      · exact (h.shape.fits p hp).leaf_replace hl (ha.header.mono (by simp)) (by omega)
    · refine h.leaves.replace (p := p) (fun q _ hqp => by rw [page_set_ne _ _ hqp]) ?_ ?_
        fun hp0 => ?_
      · rw [hpage]; exact ha.header.nextLeaf (by simp)
      · rw [hpage, hkeys]; exact sorted_findCell hs x.1
      · have := h.leaves.filled p ((h.leaves.mem p).2 ⟨hp, hl⟩) hp0
        rw [hpage]; omega
  -- the other leaves of the chain stay
  obtain ⟨l₁, l₂, hch, hnot⟩ := h.leaves.exists_split hp hl
  have hother : ∀ q ∈ l₁ ++ l₂, (m.set p a).page q = m.page q := fun q hq =>
    page_set_ne _ _ fun he => hnot (he ▸ hq)
  refine ⟨htree, ?_, l₁, l₂, hch, hnot, ?_⟩
  case refine_2 =>
    rw [hch, keysOn_middle, hpage, hkeys]
    exact congrArg₂ _ (keysOn_congr fun q hq => by rw [hother q (List.mem_append_left _ hq)])
      (congrArg _ (keysOn_congr fun q hq => by rw [hother q (List.mem_append_right _ hq)]))
  have hrest : (m.set p a).rowsOn (l₁ ++ l₂) = m.rowsOn (l₁ ++ l₂) :=
    LeafLayer.rowsOn_congr fun q hq => by rw [hother q hq]
  have hrows : (↑a.rows : Multiset (ℕ × Bytes rowSize)) = x ::ₘ ↑(m.page p).rows := by
    rw [ha.rows, Multiset.cons_coe, Multiset.coe_eq_coe]
    exact List.perm_insertIdx x _ (by rw [length_rows]; exact hle)
  rw [htree.rows_eq, h.rows_eq, hch, LeafLayer.rowsOn_middle, LeafLayer.rowsOn_middle, hrest, hpage,
    hrows, Multiset.cons_add]

/-! ## The root leaf -/

/-- The root leaf is cut, and its upper half is on its way into the tree. -/
theorem forest_cutRoot (h : Tree T m lvl chain) (hl : lvl 0 = 0) {x : ℕ × Bytes rowSize}
    (hh : Halves (m.page 0) 1 ((m.page 0).findCell x.1) x l r) (h1 : m.numPages = 1) (hT : T 1) :
    Forest T ((m.alloc.set 0 l).set 1 r) 2 (Function.update lvl 1 0) (1 ::ₘ 0) {1} ∅ := by
  obtain ⟨hleaf, -, -⟩ := h.leaf_facts h.shape.used_pos hl
  have hlleaf := hh.isLeaf hleaf
  have hrleaf := hh.newLeaf
  have hf1 : Forest T (m.set 0 l) 1 lvl 0 ∅ ∅ := by
    have hf := h.shape
    rw [h1] at hf
    refine hf.set (by omega) ?_ (fun d hd => ?_) ?_ (fun _ _ => id) fun _ _ => Iff.rfl
    · rw [kids_of_isLeaf hleaf, kids_of_isLeaf hlleaf]
    · rw [kids_of_isLeaf hlleaf] at hd
      exact absurd hd (Multiset.notMem_zero d)
    · exact (hf.fits 0 (by omega)).leaf_replace hl hh.header (by rw [hh.numCells]; omega)
  refine hf1.push (l := 0) (by rw [kids_of_isLeaf hrleaf, zero_add]; rfl) (fun d hd => ?_) ?_ ?_
    (fun q hq _ hq1 => ?_) (fun _ _ => Iff.rfl) hT (by decide) ?_
  · rw [kids_of_isLeaf hrleaf] at hd; exact absurd hd (Multiset.notMem_zero d)
  · rw [kids_of_isLeaf hrleaf]; exact Multiset.notMem_zero 1
  · refine ⟨fun _ => ⟨hrleaf, by rw [hh.newCells]; omega⟩, fun h0 => ?_, fun h0 => ?_,
      fun he => absurd he (Set.notMem_empty 1), ?_, fun _ hs => absurd rfl hs, fun h0 => ?_⟩
    · rw [Function.update_self] at h0; exact absurd rfl h0
    · rw [Function.update_self] at h0; exact absurd rfl h0
    · rw [hh.newRoot]; exact ⟨fun h => absurd h Bool.false_ne_true, fun h => by omega⟩
    · rw [Function.update_self] at h0; exact absurd rfl h0
  · exact Set.notMem_empty q hq1
  · rw [page_set, page_set, page_alloc]; rfl

/-- The two leaves below the new root. -/
theorem cutRoot_pages (ht : m.Tight) (h1 : m.numPages = 1) :
    ((((m.alloc.set 0 l).set 1 r).newRoot 1).page 2 = l.asLeft ∧
      (((m.alloc.set 0 l).set 1 r).newRoot 1).page 1 = r.store .parent 0) ∧
      (((m.alloc.set 0 l).set 1 r).newRoot 1).numPages = 3 := by
  have ht2 : ((m.alloc.set 0 l).set 1 r).Tight := ht.alloc
  have hu2 : ((m.alloc.set 0 l).set 1 r).numPages = 2 := by
    show m.alloc.numPages = 2
    rw [ht.numPages_alloc, h1]
  set m2 := (m.alloc.set 0 l).set 1 r with hm2
  have hp0 : m2.page 0 = l := by rw [hm2, page_set_ne _ _ (by omega), page_set_self]
  have hp1 : m2.page 1 = r := by rw [hm2, page_set_self]
  have hpage := fun q => newRoot_page (m := m2) q one_ne_zero (by omega) (by omega)
  rw [hu2, hp0, hp1] at hpage
  refine ⟨⟨?_, ?_⟩, ?_⟩
  · rw [hpage, if_neg (by omega), if_pos rfl]
  · rw [hpage, if_neg (by omega), if_neg (by omega), if_pos rfl]
  · rw [newRoot_numPages, ht2.numPages_alloc, hu2]

/-- The tree of the two halves, with a new root above. -/
theorem tree_cutRoot (h : Tree T m lvl chain) (hl : lvl 0 = 0) {x : ℕ × Bytes rowSize}
    (hh : Halves (m.page 0) 1 ((m.page 0).findCell x.1) x l r) (h1 : m.numPages = 1)
    (hT : T 1 ∧ T 2) :
    Tree T (((m.alloc.set 0 l).set 1 r).newRoot 1)
      (Function.update (Function.update (Function.update lvl 1 0) 2 0) 0 (0 + 1)) [2, 1] := by
  obtain ⟨-, -, hs⟩ := h.leaf_facts h.shape.used_pos hl
  obtain ⟨hls, hrs⟩ := hh.sorted rfl hs
  obtain ⟨⟨hq2, hq1⟩, hu3⟩ := cutRoot_pages (l := l) (r := r) h.tight h1
  -- the only leaf is the last one
  have hnext : (m.page 0).nextLeaf = 0 := by
    have hlinked := h.leaves.linked
    rw [h.chain_of_leaf hl] at hlinked
    exact hlinked
  have ht2 : ((m.alloc.set 0 l).set 1 r).Tight := h.tight.alloc
  have hl1 : Function.update lvl 1 0 1 = 0 := Function.update_self _ _ _
  have hl0 : Function.update lvl 1 0 0 = 0 := by rw [Function.update_of_ne (by omega), hl]
  have hforest := (h.forest_cutRoot hl hh h1 hT.1).newRoot (S := ∅)
    (by show m.alloc.numPages = 2; rw [h.tight.numPages_alloc, h1]) hT.2 (by decide)
    (by rw [hl1, hl0])
    (Set.notMem_empty 0) (by rw [page_set_self, kids_of_isLeaf hh.newLeaf])
    (fun h0 => absurd hl0 h0)
    (fun c hc => absurd hc (Multiset.notMem_zero c))
    (fun q hq _ => ⟨fun he => hq he, Multiset.notMem_zero q⟩) (Set.notMem_empty 2)
  rw [hl0] at hforest
  have hleft := SameHeader.asLeft l
  have hlkeys : l.asLeft.keys = l.keys := keys_asLeft l
  have herase : (r.store .parent 0).erase = r.erase := erase_store_parent _ _
  refine ⟨ht2.newRoot, by rw [hu3]; exact hforest,
    ⟨by decide, fun q => ?_, ⟨?_, ?_⟩, fun q hq => ?_, fun q hq _ => ?_⟩⟩
  -- the leaves are pages 2 and 1, in this order
  · rw [hu3, List.mem_pair]
    constructor
    · rintro (rfl | rfl)
      · simp
      · simp
    · rintro ⟨hq3, hq0⟩
      by_contra hne
      have : q = 0 := by omega
      subst this
      simp at hq0
  · show (Mem.page _ 2).nextLeaf = 1
    rw [hq2, hleft.nextLeaf (by simp), hh.nextLeaf]
  · show (Mem.page _ 1).nextLeaf = 0
    rw [hq1, nextLeaf_of_erase herase, hh.newNext, hnext]
  · rcases List.mem_pair.1 hq with rfl | rfl
    · rw [hq2, hlkeys]; exact hls
    · rw [hq1, keys_of_erase herase]; exact hrs
  · rcases List.mem_pair.1 hq with rfl | rfl
    · rw [hq2, hleft.numCells (by simp), hh.numCells]
    · rw [hq1, numCells_of_erase herase, hh.newCells]

/-- **A full root leaf becomes the first child of a new root.** -/
theorem insert_root (h : Tree T m lvl chain) (hl : lvl 0 = 0)
    {x : ℕ × Bytes rowSize} (hh : Halves (m.page 0) m.numPages ((m.page 0).findCell x.1) x l r)
    (hT : T 1 ∧ T 2) :
    (∃ lvl', Tree T (((m.alloc.set 0 l).set m.numPages r).newRoot m.numPages) lvl' [2, 1]) ∧
      (((m.alloc.set 0 l).set m.numPages r).newRoot m.numPages).rows = x ::ₘ m.rows ∧
      InsertsKey m chain 0 x.1 (((m.alloc.set 0 l).set m.numPages r).newRoot m.numPages) [2, 1] ∧
      ((((m.alloc.set 0 l).set m.numPages r).newRoot m.numPages).page (m.numPages + 1)).rows =
        l.rows ∧
      ((((m.alloc.set 0 l).set m.numPages r).newRoot m.numPages).page m.numPages).rows =
        r.rows := by
  have h1 := h.numPages_of_leaf hl
  have hch := h.chain_of_leaf hl
  rw [h1] at hh ⊢
  have htree := h.tree_cutRoot hl hh h1 hT
  obtain ⟨⟨hq2, hq1⟩, -⟩ := cutRoot_pages (l := l) (r := r) h.tight h1
  have herase : (r.store .parent 0).erase = r.erase := erase_store_parent _ _
  have hlrows := rows_asLeft l
  refine ⟨⟨_, htree⟩, ?_, ⟨[], [], hch, List.not_mem_nil, ?_⟩, ?_, ?_⟩
  -- rows and keys are those of the two halves
  · rw [htree.rows_eq, h.rows_eq, hch]
    unfold rowsOn
    simp only [List.flatMap_cons, List.flatMap_nil, List.append_nil, hq2, hq1, hlrows,
      rows_of_erase herase,
      hh.rows_append]
    rw [Multiset.cons_coe, Multiset.coe_eq_coe]
    exact List.perm_insertIdx x _ (by rw [length_rows]; exact findCell_le _ _)
  · unfold keysOn
    simp only [List.flatMap_cons, List.flatMap_nil, List.append_nil, List.nil_append, hq2, hq1,
      keys_asLeft,
      keys_of_erase herase]
    exact hh.keys_append
  · rw [hq2, hlrows]
  · rw [hq1, rows_of_erase herase]

/-! ## A full leaf below the root -/

/-- The state in which the upper half of a leaf goes to the parent. -/
def cut (m : Mem) (p : ℕ) (l r : Page) : Mem :=
  (m.alloc.set p (l.stray (m.page p).maxKey)).set m.numPages r

theorem cut_tight (h : Tree T m lvl chain) : (cut m p l r).Tight := h.tight.alloc

theorem cut_numPages (h : Tree T m lvl chain) : (cut m p l r).numPages = m.numPages + 1 :=
  h.tight.numPages_alloc

/-- The pages after the cut: the lower half has the stray separator. -/
theorem cut_page (q : ℕ) : (cut m p l r).page q =
    if q = m.numPages then r else if q = p then l.stray (m.page p).maxKey else m.page q := by
  unfold cut
  rw [page_set, page_set, page_alloc, Function.update_apply, Function.update_apply]

/-- **The upper half of a leaf, not hung up yet.** -/
theorem forest_cut (h : Tree T m lvl chain) (hp : p < m.numPages) (hl : lvl p = 0) (hp0 : p ≠ 0)
    {x : ℕ × Bytes rowSize} (hh : Halves (m.page p) m.numPages ((m.page p).findCell x.1) x l r)
    (hT : T m.numPages) (hlt : m.numPages < filePagesNum) :
    Forest T (cut m p l r) (m.numPages + 1) (Function.update lvl m.numPages 0) (m.numPages ::ₘ 0)
      ∅ ∅ := by
  obtain ⟨hleaf, -, -⟩ := h.leaf_facts hp hl
  have hstray := SameHeader.stray l (m.page p).maxKey
  have hlleaf : (l.stray (m.page p).maxKey).isLeaf = true :=
    (hstray.isLeaf (by simp)).trans (hh.isLeaf hleaf)
  have hrleaf := hh.newLeaf
  -- first the lower half in place, then the new leaf
  have hf1 : Forest T (m.set p (l.stray (m.page p).maxKey)) m.numPages lvl 0 ∅ ∅ := by
    refine h.shape.set hp ?_ (fun d hd => ?_) ?_ (fun _ _ => id) fun _ _ => Iff.rfl
    · rw [kids_of_isLeaf hleaf, kids_of_isLeaf hlleaf]
    · rw [kids_of_isLeaf hlleaf] at hd; exact absurd hd (Multiset.notMem_zero d)
    · refine (h.shape.fits p hp).leaf_replace hl ((hstray.mono (by simp)).trans hh.header) ?_
      rw [hstray.numCells (by simp), hh.numCells]; omega
  obtain ⟨hpar, hparl⟩ := (h.shape.fits p hp).parent hp0 (Set.notMem_empty p)
  refine hf1.push (l := 0) (by rw [kids_of_isLeaf hrleaf, zero_add]; rfl) (fun d hd => ?_) ?_ ?_
    (fun _ _ => id) (fun _ _ => Iff.rfl) hT hlt ?_
  · rw [kids_of_isLeaf hrleaf] at hd; exact absurd hd (Multiset.notMem_zero d)
  · rw [kids_of_isLeaf hrleaf]; exact Multiset.notMem_zero _
  · refine ⟨fun _ => ⟨hrleaf, by rw [hh.newCells]; omega⟩, fun h0 => ?_, fun h0 => ?_,
      fun he => absurd he (Set.notMem_empty _), ?_, fun _ _ => ?_, fun h0 => ?_⟩
    · rw [Function.update_self] at h0; exact absurd rfl h0
    · rw [Function.update_self] at h0; exact absurd rfl h0
    · rw [hh.newRoot]; exact ⟨fun h => absurd h Bool.false_ne_true, fun h => by omega⟩
    · rw [hh.newParent, Function.update_self, Function.update_of_ne hpar.ne, hparl, hl]
      exact ⟨by omega, rfl⟩
    · rw [Function.update_self] at h0; exact absurd rfl h0
  · unfold cut
    rw [page_set, page_set, page_alloc]; rfl

/-- What insertion does to the rows: one more, and in a split below the root the first
row of the lower half changes as `Page.stray` says. The pages the row may be on. -/
structure InsertsRow (m : Mem) (p : ℕ) (x : ℕ × Bytes rowSize) (m' : Mem) : Prop where
  quiet : (m.page p).numCells < 15 ∨ p = 0 → m'.rows = x ::ₘ m.rows
  room : (m.page p).numCells < 15 → (m'.page p).rows =
    (m.page p).rows.insertIdx ((m.page p).findCell x.1) x
  root : (m.page p).numCells = 15 → p = 0 →
    (m'.page (m.numPages + 1)).rows =
      ((m.page p).rows.insertIdx ((m.page p).findCell x.1) x).take 8 ∧
      (m'.page m.numPages).rows = ((m.page p).rows.insertIdx ((m.page p).findCell x.1) x).drop 8
  stray : (m.page p).numCells = 15 → p ≠ 0 → ∃ l r,
    Halves (m.page p) m.numPages ((m.page p).findCell x.1) x l r ∧
    m'.rows + {l.row 0} = x ::ₘ m.rows + {(l.stray (m.page p).maxKey).row 0} ∧
    (m'.page p).rows = (l.stray (m.page p).maxKey).rows ∧ (m'.page m.numPages).rows = r.rows

/-- **The leaf layer after a split**, from the shape of the tree after it. -/
theorem insert_cut (h : Tree T m lvl chain) (hp : p < m.numPages) (hl : lvl p = 0) (hp0 : p ≠ 0)
    {x : ℕ × Bytes rowSize} (hh : Halves (m.page p) m.numPages ((m.page p).findCell x.1) x l r)
    {m' : Mem}
    (he : Forest.Ends T (cut m p l r) (m.numPages + 1) (Function.update lvl m.numPages 0) ∅ m') :
    (∃ lvl' chain', Tree T m' lvl' chain' ∧ InsertsKey m chain p x.1 m' chain') ∧
      m'.rows + {l.row 0} = x ::ₘ m.rows + {(l.stray (m.page p).maxKey).row 0} ∧
      (m'.page p).rows = (l.stray (m.page p).maxKey).rows ∧ (m'.page m.numPages).rows = r.rows := by
  obtain ⟨ht', lvl', hf', hg⟩ := he
  obtain ⟨-, -, hs⟩ := h.leaf_facts hp hl
  obtain ⟨hls, hrs⟩ := hh.sorted rfl hs
  obtain ⟨l₁, l₂, hch, hnot⟩ := h.leaves.exists_split hp hl
  have hpn : p ≠ m.numPages := hp.ne
  have hu0 := h.shape.used_pos
  have hroot : 0 < lvl 0 := by have := h.lt_root hp hp0; omega
  have hstray := SameHeader.stray l (m.page p).maxKey
  have hle := hg.used_le
  have hmemc : ∀ q ∈ chain, q < m.numPages ∧ lvl q = 0 ∧ q ≠ 0 := fun q hq => by
    have := (h.leaves.mem q).1 hq
    exact ⟨this.1, this.2, fun h0 => by rw [h0] at this; omega⟩
  -- the leaves are kept by what happens above them
  have hkeep : ∀ q < m.numPages + 1, q ≠ 0 → Function.update lvl m.numPages 0 q = 0 →
      (m'.page q).erase = ((cut m p l r).page q).erase := hg.keeps
  have hkp : (m'.page p).erase = (l.stray (m.page p).maxKey).erase := by
    rw [hkeep p (by omega) hp0 (by rw [Function.update_of_ne hpn, hl]), cut_page, if_neg hpn,
      if_pos rfl]
  have hkn : (m'.page m.numPages).erase = r.erase := by
    rw [hkeep _ (by omega) hu0.ne' (Function.update_self _ _ _), cut_page, if_pos rfl]
  have hkq : ∀ q ∈ l₁ ++ l₂, (m'.page q).erase = (m.page q).erase := fun q hq => by
    have hqc : q ∈ chain := by
      rw [hch, List.perm_middle.mem_iff]; exact List.mem_cons_of_mem _ hq
    obtain ⟨h1, h2, h3⟩ := hmemc q hqc
    have hqp : q ≠ p := fun he => hnot (he ▸ hq)
    rw [hkeep q (by omega) h3 (by rw [Function.update_of_ne h1.ne, h2]), cut_page, if_neg h1.ne,
      if_neg hqp]
  have hkeys : (l.stray (m.page p).maxKey).keys = l.keys := keys_stray hh.numCells.le
  have hlayer : LeafLayer m' m'.numPages lvl' (l₁ ++ p :: m.numPages :: l₂) := by
    have hlay := h.leaves
    rw [hch] at hlay
    refine hlay.insertAfter hnot (fun hm => ?_) (fun q => ?_) hkq ?_ ?_ ⟨?_, ?_⟩ ⟨?_, ?_⟩
    · rw [← hch] at hm; exact absurd (hmemc _ hm).1 (lt_irrefl _)
    · constructor
      · rintro ⟨hq, hq0⟩
        by_cases hqu : q < m.numPages + 1
        · by_cases hqz : q = 0
          · have := hg.root
            rw [Function.update_of_ne hu0.ne] at this
            rw [hqz] at hq0; omega
          · have hlev := hg.level q hqu hqz
            rcases Nat.lt_succ_iff_lt_or_eq.1 hqu with hqu | hqu
            · rw [Function.update_of_ne hqu.ne] at hlev
              exact Or.inl ⟨hqu, by omega⟩
            · exact Or.inr hqu
        · exact absurd hq0 (hg.new q (by omega) hq)
      · rintro (⟨hq, hq0⟩ | rfl)
        · have hqz : q ≠ 0 := by rintro rfl; omega
          have hlev := hg.level q (by omega) hqz
          rw [Function.update_of_ne hq.ne] at hlev
          exact ⟨by omega, by omega⟩
        · have hlev := hg.level m.numPages (by omega) hu0.ne'
          rw [Function.update_self] at hlev
          exact ⟨by omega, hlev⟩
    · rw [nextLeaf_of_erase hkp, hstray.nextLeaf (by simp), hh.nextLeaf]
    · rw [nextLeaf_of_erase hkn, hh.newNext]
    · rw [keys_of_erase hkp, hkeys]; exact hls
    · rw [keys_of_erase hkn]; exact hrs
    · rw [numCells_of_erase hkp, hstray.numCells (by simp), hh.numCells]
    · rw [numCells_of_erase hkn, hh.newCells]
  have htree : Tree T m' lvl' (l₁ ++ p :: m.numPages :: l₂) := ⟨ht', hf', hlayer⟩
  have hinserts : InsertsKey m chain p x.1 m' (l₁ ++ p :: m.numPages :: l₂) := by
    refine ⟨l₁, l₂, hch, hnot, ?_⟩
    rw [keysOn_middle, keysOn_cons, keys_of_erase hkp, keys_of_erase hkn, hkeys, ← hh.keys_append,
      List.append_assoc]
    exact congrArg₂ _ (keysOn_congr fun q hq => hkq q (List.mem_append_left _ hq))
      (congrArg _ (congrArg _ (keysOn_congr fun q hq => hkq q (List.mem_append_right _ hq))))
  refine ⟨⟨_, _, htree, hinserts⟩, ?_, rows_of_erase hkp, rows_of_erase hkn⟩
  obtain ⟨rest, hlr, hsr⟩ := rows_stray (m.page p).maxKey hh.numCells
  have hrest : m'.rowsOn (l₁ ++ l₂) = m.rowsOn (l₁ ++ l₂) := LeafLayer.rowsOn_congr hkq
  have hmid : m'.rowsOn (l₁ ++ p :: m.numPages :: l₂) =
      ↑(l.stray (m.page p).maxKey).rows + (↑r.rows + m.rowsOn (l₁ ++ l₂)) := by
    rw [LeafLayer.rowsOn_middle, LeafLayer.rowsOn_middle, rows_of_erase hkp,
      rows_of_erase hkn, hrest]
  have hold : x ::ₘ (↑(m.page p).rows : Multiset (ℕ × Bytes rowSize)) = ↑l.rows + ↑r.rows := by
    rw [Multiset.coe_add, hh.rows_append, Multiset.cons_coe, Multiset.coe_eq_coe]
    exact (List.perm_insertIdx x _ (by rw [length_rows]; exact findCell_le _ _)).symm
  rw [htree.rows_eq, h.rows_eq, hmid, hch, LeafLayer.rowsOn_middle, ← Multiset.cons_add, hold,
    hlr, hsr]
  rw [← Multiset.cons_coe, ← Multiset.cons_coe, ← Multiset.singleton_add, ← Multiset.singleton_add]
  abel

end

/-! ## Insertion -/

/-- When the split of a full leaf below the root overwrites a slot of the root that holds
`INVALID_PAGE_NUM`: the root takes the new leaf, and the slot after its cells is the one
it writes to. -/
structure HitsInvalidSlot (m : Mem) (p : ℕ) (l r : Page) : Prop where
  parent : (m.page p).parent = 0
  room : (m.page 0).numKeys < 3
  slot : (if (m.page 0).rightChild = p then l.maxKey else (m.page (m.page 0).rightChild).maxKey) <
      r.maxKey ∨ (m.page 0).findChild r.maxKey = (m.page 0).numKeys
  invalid : (m.page 0).child (m.page 0).numKeys = invalidPageNum

/-- **The slot of the root is checked** before it is overwritten. -/
theorem wp_leafNodeInsert_exit {fuel : ℕ} {e : Bool} (h : Tree T m lvl chain) (hp : p < m.numPages)
    (hl : lvl p = 0) (hkey : key < 2 ^ 32) (hK : ∀ i < 3, K i) (hT : T m.numPages)
    (hlt : m.numPages < filePagesNum)
    (hfull : (m.page p).numCells = 15) (hp0 : p ≠ 0)
    (hslot : ∀ l r, Halves (m.page p) m.numPages ((m.page p).findCell key) (key, row.serialize) l
      r → HitsInvalidSlot m p l r)
    (hF : ∀ e m', F (.exit e) m') :
    wp (handler K T) (leafNodeInsert fuel ⟨p, (m.page p).findCell key, e⟩ key row)
      (fun _ _ => False) F m := by
  have hfits := h.shape.fits p hp
  obtain ⟨hleaf, -, -⟩ := h.leaf_facts hp hl
  refine wp_leafNodeInsert_full h.tight hp (h.shape.allowed p hp)
    (by unfold filePagesNum at hlt; omega) hleaf hfull
    ((findCell_le _ _).trans hfull.le) hkey (fun hnT => absurd hT hnT)
    (fun _ hroot _ _ _ => absurd (hfits.root.1 hroot) hp0)
    fun _ _ l r hh => ?_
  -- the parent is the root, and its free slot holds the invalid number
  obtain ⟨hpar0, hroom, hwhere, hinv⟩ := hslot l r hh
  have hforest := h.forest_cut (x := (key, row.serialize)) hp hl hp0 hh hT hlt
  have hu0 := h.shape.used_pos
  have hparl := (hfits.parent hp0 (Set.notMem_empty p)).2
  rw [hpar0] at hparl ⊢
  have hpage := cut_page (m := m) (p := p) (l := l) (r := r)
  have hpage0 : (cut m p l r).page 0 = m.page 0 := by
    rw [hpage, if_neg hu0.ne, if_neg (Ne.symm hp0)]
  have hpnew : (cut m p l r).page m.numPages = r := by rw [hpage, if_pos rfl]
  have hnode := (h.shape.fits 0 hu0).node (by omega) (Set.notMem_empty 0)
  have hrc := (h.shape.kid_lt hu0 hnode.right_mem).1
  obtain ⟨split, k, heq⟩ := internalNodeInsert_eq fuel
  rw [heq]
  refine hforest.wp_insert_room (Forest.cached_of_tight h.cut_tight h.cut_numPages) (by omega) ?_
    (by rw [hpage0]; exact hroom)
    hK (fun _ _ _ _ => hF) fun a' _ hfree => ?_
  · rw [Function.update_self, Function.update_of_ne hu0.ne, hparl, hl]
  · rw [hpage0, hpnew] at hfree
    refine hfree ?_ hinv
    rw [hpage, if_neg hrc.ne]
    by_cases hrp : (m.page 0).rightChild = p
    · rw [if_pos hrp] at hwhere ⊢
      rwa [maxKey_stray hh.numCells (hh.isLeaf hleaf)]
    · rwa [if_neg hrp] at hwhere ⊢

/-- The root was a full leaf. Its halves get a root above them. -/
theorem wp_createNewRoot_within {fuel : ℕ} (h : Tree T m lvl chain) (hl : lvl 0 = 0) (hK : K 0)
    (hfull : (m.page 0).numCells = 15) (hT : T m.numPages)
    (hh : Halves (m.page 0) m.numPages ((m.page 0).findCell key) (key, row.serialize) l r)
    (hF : ∀ e m, F (.outOfRange e) m) (hfirst : l.key 0 = invalidPageNum → ∀ e m', F (.exit e) m')
    (hQ : ∀ m' lvl' chain', Tree T m' lvl' chain' → InsertsRow m 0 (key, row.serialize) m' →
      InsertsKey m chain 0 key m' chain' → Q () m') :
    wp (handler K T) (createNewRoot fuel m.numPages) Q F
      ((m.alloc.set 0 l).set m.numPages r) := by
  obtain ⟨hleaf, -, -⟩ := h.leaf_facts h.shape.used_pos hl
  have h1 := h.numPages_of_leaf hl
  have hpl : ((m.alloc.set 0 l).set m.numPages r).page 0 = l := by
    rw [page_set_ne _ _ (by omega), page_set_self]
  have hu2 : ((m.alloc.set 0 l).set m.numPages r).numPages = m.numPages + 1 :=
    h.tight.numPages_alloc
  refine wp_createNewRoot_leaf (m := (m.alloc.set 0 l).set m.numPages r) h.tight.alloc (by omega)
    (by omega) (by omega) ⟨h.shape.allowed 0 h.shape.used_pos, hT⟩
    (by rw [hpl]; exact hh.isLeaf hleaf) (by rw [hpl, hh.numCells]; omega) hK
    (fun hv => hfirst (hpl ▸ hv)) (fun _ => hF) fun hT2 => ?_
  rw [hu2] at hT2
  rw [h1] at hT hT2
  obtain ⟨⟨lvl', htree⟩, hrows, hkeys, hlower, hupper⟩ :=
    h.insert_root (x := (key, row.serialize)) hl hh ⟨hT, hT2⟩
  exact hQ _ _ _ htree ⟨fun _ => hrows, fun hn => absurd hfull hn.ne,
    fun _ _ => ⟨hlower.trans hh.rows, hupper.trans hh.newRows⟩,
    fun _ hne => absurd rfl hne⟩ hkeys

omit [DecidablePred T] in
/-- The slot the parent writes to, if the parent is a root above the leaves. -/
theorem hitsInvalidSlot_of_cut (h : Tree T m lvl chain) (hp : p < m.numPages) (hl : lvl p = 0)
    (hp0 : p ≠ 0) (hh : Halves (m.page p) m.numPages c (key, row.serialize) l r)
    (hpar0 : (m.page p).parent = 0) (hroom : (m.page 0).numKeys < 3)
    (hwhere : ((cut m p l r).page (m.page 0).rightChild).maxKey < r.maxKey ∨
      (m.page 0).findChild r.maxKey = (m.page 0).numKeys)
    (hinv : (m.page 0).child (m.page 0).numKeys = invalidPageNum) : HitsInvalidSlot m p l r := by
  obtain ⟨hleaf, -, -⟩ := h.leaf_facts hp hl
  obtain ⟨-, hparl⟩ := (h.shape.fits p hp).parent hp0 (Set.notMem_empty p)
  refine ⟨hpar0, hroom, ?_, hinv⟩
  have hnode :=
    (h.shape.fits 0 h.shape.used_pos).node (by rw [← hpar0]; omega) (Set.notMem_empty 0)
  have hrc := (h.shape.kid_lt h.shape.used_pos hnode.right_mem).1
  rw [cut_page, if_neg hrc.ne] at hwhere
  by_cases hrp : (m.page 0).rightChild = p
  · rw [if_pos hrp] at hwhere ⊢
    rwa [maxKey_stray hh.numCells (hh.isLeaf hleaf)] at hwhere
  · rwa [if_neg hrp] at hwhere ⊢

/-- The parent takes the upper half of a leaf below the root. -/
theorem wp_internalNodeInsert_cut {fuel : ℕ} (h : Tree T m lvl chain) (hp : p < m.numPages)
    (hl : lvl p = 0) (hp0 : p ≠ 0) (hK : ∀ i < 3, K i) (hTf : ∀ q, T q → q < filePagesNum)
    (hfull : (m.page p).numCells = 15) (hT : T m.numPages)
    (hh : Halves (m.page p) m.numPages ((m.page p).findCell key) (key, row.serialize) l r)
    (hF : ∀ e m, F (.outOfRange e) m) (hdeep : fuel < lvl 0 → ∀ m, F .noReturn m)
    (hstray : (m.page (m.page p).parent).numKeys = 3 → T (m.numPages + 1) →
      ((m.page p).parent = 0 → T (m.numPages + 2)) → ∀ m', F .outOfPage m')
    (hslot : HitsInvalidSlot m p l r → ∀ e m', F (.exit e) m')
    (hQ : ∀ m' lvl' chain', Tree T m' lvl' chain' → InsertsRow m p (key, row.serialize) m' →
      InsertsKey m chain p key m' chain' → Q () m') :
    wp (handler K T) (internalNodeInsert fuel (m.page p).parent m.numPages) Q F
      (cut m p l r) := by
  have hforest := h.forest_cut (x := (key, row.serialize)) hp hl hp0 hh hT (hTf _ hT)
  have hu := h.shape.used_le
  obtain ⟨hpar, hparl⟩ := (h.shape.fits p hp).parent hp0 (Set.notMem_empty p)
  have hgp : (m.page p).parent ≠ p := fun he => by rw [he] at hparl; omega
  have hpage := cut_page (m := m) (p := p) (l := l) (r := r)
  have hpg : (cut m p l r).page (m.page p).parent = m.page (m.page p).parent := by
    rw [hpage, if_neg hpar.ne, if_neg hgp]
  have hpnew : (cut m p l r).page m.numPages = r := by rw [hpage, if_pos rfl]
  have hlg : Function.update lvl m.numPages 0 (m.page p).parent = lvl p + 1 := by
    rw [Function.update_of_ne hpar.ne]; exact hparl
  have hdone :
      ∀ m', Forest.Ends T (cut m p l r) (m.numPages + 1) (Function.update lvl m.numPages 0) ∅ m' →
      Q () m' := fun m' he => by
    obtain ⟨⟨lvl', chain', htree, hkeys⟩, hrows⟩ :=
      h.insert_cut (x := (key, row.serialize)) hp hl hp0 hh he
    refine hQ m' lvl' chain' htree ⟨fun hor => ?_, fun hn => absurd hfull hn.ne,
      fun _ h0 => absurd h0 hp0,
      fun _ _ => ⟨l, r, hh, hrows⟩⟩ hkeys
    rcases hor with hor | hor
    · exact absurd hfull hor.ne
    · exact absurd hor hp0
  have hfuel : fuel + Function.update lvl m.numPages 0 (m.page p).parent ≤
      Function.update lvl m.numPages 0 0 →
      ∀ m, F .noReturn m := by
    intro hle
    rw [hlg, Function.update_of_ne h.shape.used_pos.ne] at hle
    exact hdeep (by omega)
  refine Forest.wp_internalNodeInsert_within hK hTf hF fuel (m.page p).parent _ (m.numPages + 1) _
    ∅ m.numPages Q hforest
    h.cut_tight h.cut_numPages (by omega) (by rw [hlg, Function.update_self, hl])
    (fun _ he => absurd he (Set.notMem_empty _)) (Set.notMem_empty 0) hfuel ?_
    (fun h3 => hstray (hpg ▸ h3)) hdone
  rw [hpg, hpnew]
  intro hpar0 _ hroom hwhere hinv
  rw [hpar0] at hroom hwhere hinv
  exact hslot (h.hitsInvalidSlot_of_cut hp hl hp0 hh hpar0 hroom hwhere hinv)

/-- **Insertion into a leaf keeps the tree**, or ends in a fault. The recursion ends at the root. -/
theorem wp_leafNodeInsert_within {fuel : ℕ} {e : Bool} (h : Tree T m lvl chain)
    (hp : p < m.numPages)
    (hl : lvl p = 0) (hkey : key < 2 ^ 32) (hK : ∀ i < 3, K i) (hTf : ∀ q, T q → q < filePagesNum)
    (hF : ∀ e m, F (.outOfRange e) m) (hdeep : fuel < lvl 0 → ∀ m, F .noReturn m)
    (hstray : (m.page p).numCells = 15 → p ≠ 0 → (m.page (m.page p).parent).numKeys = 3 →
      T (m.numPages + 1) →
      ((m.page p).parent = 0 → T (m.numPages + 2)) → ∀ m', F .outOfPage m')
    (hfirst : (m.page p).numCells = 15 → p = 0 → ∀ l r,
      Halves (m.page p) m.numPages ((m.page p).findCell key) (key, row.serialize) l r →
      l.key 0 = invalidPageNum → ∀ e m', F (.exit e) m')
    (hslot : (m.page p).numCells = 15 → p ≠ 0 → T m.numPages → ∀ l r,
      Halves (m.page p) m.numPages ((m.page p).findCell key) (key, row.serialize) l r →
      HitsInvalidSlot m p l r → ∀ e m', F (.exit e) m')
    (hQ : ∀ m' lvl' chain', Tree T m' lvl' chain' → InsertsRow m p (key, row.serialize) m' →
      InsertsKey m chain p key m' chain' → Q () m') :
    wp (handler K T) (leafNodeInsert fuel ⟨p, (m.page p).findCell key, e⟩ key row) Q F m := by
  have hTp := h.shape.allowed p hp
  have hc := findCell_le (m.page p) key
  obtain ⟨hleaf, h15, -⟩ := h.leaf_facts hp hl
  have hu := h.shape.used_le
  by_cases hn : (m.page p).numCells < 15
  · refine wp_leafNodeInsert_room hTp hn hc hkey fun a ha => ?_
    rw [h.tight.touch_of_lt hp]
    obtain ⟨htree, hrows, hkeys⟩ := h.insert_room (x := (key, row.serialize)) hp hl hn ha
    have hpage : ((m.set p a).page p).rows = a.rows := by rw [page_set_self]
    exact hQ _ _ _ htree ⟨fun _ => hrows, fun _ => hpage.trans ha.rows,
      fun hfull => absurd hfull hn.ne,
      fun hfull => absurd hfull hn.ne⟩ hkeys
  have hfull : (m.page p).numCells = 15 := by omega
  refine wp_leafNodeInsert_full h.tight hp hTp (by unfold filePagesNum at hu; omega) hleaf hfull
    (by omega) hkey (fun _ => hF _ _) (fun hT hroot l r hh => ?_) fun hT hroot l r hh => ?_
  · obtain rfl : p = 0 := (h.shape.fits p hp).root.1 hroot
    exact h.wp_createNewRoot_within hl (hK 0 (by omega)) hfull hT hh hF
      (hfirst hfull rfl l r hh) hQ
  · have hp0 : p ≠ 0 := fun he => by
      rw [(h.shape.fits p hp).root.2 he] at hroot
      cases hroot
    exact h.wp_internalNodeInsert_cut hp hl hp0 hK hTf hfull hT hh hF hdeep (hstray hfull hp0)
      (hslot hfull hp0 hT l r hh) hQ

end Tree

end ToySQL
