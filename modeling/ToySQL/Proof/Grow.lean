import ToySQL.Proof.Root

/-!
# Insertion into internal nodes keeps the shape

`Forest.wp_internalNodeInsert_within`: from a tree with one pending page, inserting that
page below a node one level up ends in a tree, unless the file is full or the bound on the
recursion too small (`Soft`). The induction is on the depth of the recursion; a page that
is created on the way stays stale until the call that created it gets control back.
-/

namespace ToySQL

open Program

/-- Faults that no property of the tree rules out: a file that is full, and a recursion bound
that is too small. -/
structure Soft (F : Fault → Mem → Prop) : Prop where
  outOfRange : ∀ e m, F (.outOfRange e) m
  noReturn : ∀ m, F .noReturn m

namespace Forest

open Page Mem

variable {K T : ℕ → Prop} [DecidablePred K] [DecidablePred T] {m m' m'' : Mem}
  {F : Fault → Mem → Prop} {Q : Unit → Mem → Prop} {used used' used'' : ℕ} {lvl lvl' lvl'' : ℕ → ℕ}

/-- How the tree changes above the leaves: pages are added and the root may rise, but no
leaf is touched except for its parent field. -/
structure Grows (m : Mem) (used : ℕ) (lvl : ℕ → ℕ) (m' : Mem) (used' : ℕ) (lvl' : ℕ → ℕ) :
    Prop where
  used_le : used ≤ used'
  level : ∀ q < used, q ≠ 0 → lvl' q = lvl q
  root : lvl 0 ≤ lvl' 0
  new : ∀ q, used ≤ q → q < used' → lvl' q ≠ 0
  keeps : ∀ q < used, q ≠ 0 → lvl q = 0 → (m'.page q).erase = (m.page q).erase

theorem Grows.trans (h : Grows m used lvl m' used' lvl') (h' : Grows m' used' lvl' m'' used'' lvl'')
    (h0 : 0 < used) : Grows m used lvl m'' used'' lvl'' := by
  have hle := h.used_le
  refine ⟨hle.trans h'.used_le, fun q hq hq0 => ?_, h.root.trans h'.root, fun q hq hq' => ?_,
    fun q hq hq0 hl => ?_⟩
  · rw [h'.level q (by omega) hq0, h.level q hq hq0]
  · by_cases hqu : q < used'
    · rw [h'.level q hqu (by omega)]; exact h.new q hq hqu
    · exact h'.new q (by omega) hq'
  · rw [h'.keeps q (by omega) hq0 (by rw [h.level q hq hq0]; exact hl)]
    exact h.keeps q hq hq0 hl

/-- No page is added. -/
theorem Grows.of_keeps (h : KeepsLeaves lvl used m m') : Grows m used lvl m' used lvl :=
  ⟨le_rfl, fun _ _ _ => rfl, le_rfl, fun _ _ _ => by omega, fun q hq _ hl => h q hq hl⟩

/-- `internal_node_insert` into a full node goes on with the split. -/
theorem wp_insert_full {split : ℕ → ℕ → Prog ℕ Unit} {fuel p c : ℕ} {pending : Multiset ℕ}
    {stale : Set ℕ} (h : Forest T m used lvl (c ::ₘ pending) stale ∅)
    (hcached : ∀ q < used, m.cached q = true) (hp : p < used)
    (h3 : (m.page p).numKeys = 3) (hK : ∀ i < 3, K i) (hQ : wp (handler K T) (split p c) Q F m) :
    wp (handler K T) (internalNodeInsertStep split fuel p c) Q F m := by
  have hc := h.pending_lt (Multiset.mem_cons_self c pending)
  have hge : (m.page p).load .numKeys ≥ internalNodeMaxCells := h3.ge
  unfold internalNodeInsertStep
  simp only [wp_bind, wp_getPage (h.allowed p hp), wp_getPage (h.allowed c hc.1),
    touch_of_cached (hcached p hp), touch_of_cached (hcached c hc.1),
    wp_getNodeMaxKey _ (h.maxOk hK hc.1 (Set.notMem_empty c))]
  rw [wp_internalNodeFindChild (by omega) fun i hi => access_internalKey (by omega)
    (hK i (by omega))]
  simp only [wp_load (access_header .numKeys), if_pos hge]
  exact hQ

omit [DecidablePred T] in
/-- The empty node of a split, at the unused page. -/
theorem push_empty {pending : Multiset ℕ} {stale : Set ℕ} {l : ℕ}
    (h : Forest T m used lvl pending stale ∅) (hl : l ≠ 0) (hT : T used) (hlt : used < filePagesNum)
    (hu : m.numPages = used) :
    Forest T (m.alloc.set used (m.page used).initInternal) (used + 1) (Function.update lvl used l)
      (pending + {used}) (insert used stale) {used} := by
  have h0 := h.used_pos
  -- an initialised node has no child yet
  have hkids : (m.page used).initInternal.kids = 0 := by
    rw [kids_of_not_isLeaf (not_isLeaf_of_isInternal (isInternal_initInternal _))]
    unfold children
    rw [numKeys_initInternal, rightChild_initInternal]
    rfl
  refine h.push (l := l) (by rw [hkids, zero_add]) (fun c hc => ?_) ?_ ?_ (fun q _ hs hq => ?_)
    (fun q hq => ?_) hT hlt ?_
  · rw [hkids] at hc; exact absurd hc (Multiset.notMem_zero c)
  · rw [hkids]; exact Multiset.notMem_zero used
  · refine ⟨fun hz => ?_, fun _ => isInternal_initInternal _, fun _ he => absurd rfl he,
      fun _ => ⟨numKeys_initInternal _, rightChild_initInternal _⟩, ?_, fun _ hs =>
        ?_, fun _ _ i hi => ?_⟩
    · rw [Function.update_self] at hz; exact absurd hz hl
    · rw [isRoot_initInternal]
      exact ⟨fun h => absurd h Bool.false_ne_true, fun h => by omega⟩
    · exact absurd (Set.mem_insert used stale) hs
    -- its slots are those of a page never used, which are 0
    · rw [child_of_slot (slot_initInternal _ i), h.zero used le_rfl]
      have hz : Page.child (Bytes.zero pageSize) i = 0 := Bytes.toNat_slice_zero _ _ _
      rw [hz]; decide
  · exact hs (Set.mem_insert_of_mem _ hq)
  · rw [Set.mem_singleton_iff]
    exact ⟨fun he => absurd he hq.ne, fun he => absurd he (Set.notMem_empty q)⟩
  · funext q
    rw [page_set, page_alloc]

/-- In a tight memory the pages in use are cached. -/
theorem cached_of_tight (hm : m.Tight) (hu : m.numPages = used) :
    ∀ q < used, m.cached q = true := fun q hq => by
  rw [hm q, hu]; exact decide_eq_true hq

/-- The state a split ends in: a tree that has grown, with a tight cache. -/
structure Ends (T : ℕ → Prop) (m : Mem) (used : ℕ) (lvl : ℕ → ℕ) (stale : Set ℕ) (m' : Mem) :
    Prop where
  tight : m'.Tight
  shape : ∃ lvl', Forest T m' m'.numPages lvl' 0 stale ∅ ∧ Grows m used lvl m' m'.numPages lvl'

section

omit [DecidablePred K] [DecidablePred T]

/-- The levels when the root is split: the empty node is at `used`, and the old root at the page
behind it. -/
def rootSplit (lvl : ℕ → ℕ) (used : ℕ) : ℕ → ℕ :=
  Function.update (Function.update (Function.update lvl used (lvl 0)) (used + 1) (lvl 0)) 0
    (lvl 0 + 1)

theorem rootSplit_zero : rootSplit lvl used 0 = lvl 0 + 1 := Function.update_self _ _ _

theorem rootSplit_left : rootSplit lvl used (used + 1) = lvl 0 := by
  rw [rootSplit, Function.update_of_ne (by omega), Function.update_self]

theorem rootSplit_new (h0 : 0 < used) : rootSplit lvl used used = lvl 0 := by
  rw [rootSplit, Function.update_of_ne h0.ne', Function.update_of_ne (by omega),
    Function.update_self]

/-- The other pages stay on their levels. -/
theorem rootSplit_of_lt {q : ℕ} (hq : q < used) (hq0 : q ≠ 0) : rootSplit lvl used q = lvl q := by
  rw [rootSplit, Function.update_of_ne hq0, Function.update_of_ne (by omega),
    Function.update_of_ne hq.ne]

/-- The memory when the root is split: the new page is an empty node, and above it and the old
root there is a new one. -/
def rootSplitMem (m : Mem) (used : ℕ) : Mem :=
  (m.alloc.set used (m.page used).initInternal).newRoot used

theorem rootSplitMem_tight (used : ℕ) (hm : m.Tight) : (rootSplitMem m used).Tight :=
  (hm.alloc.set used _).newRoot

theorem rootSplitMem_numPages (hm : m.Tight) (hu : m.numPages = used) :
    (rootSplitMem m used).numPages = used + 2 := by
  rw [rootSplitMem, newRoot_numPages, Tight.numPages_alloc (hm.alloc.set used _), numPages_set,
    hm.numPages_alloc, hu]

theorem rootSplitMem_page (hm : m.Tight) (hu : m.numPages = used) (h0 : 0 < used) (q : ℕ) :
    (rootSplitMem m used).page q =
      if q = 0 then (m.page 0).asRoot (used + 1) (m.page 0).maxKey used
      else if q = used + 1 then (m.page 0).asLeft
      else if q = used then (m.page used).initInternal.store .parent 0
      else if q ∈ (m.page 0).adopted then
        ((m.alloc.set used (m.page used).initInternal).page q).store .parent (used + 1)
      else (m.alloc.set used (m.page used).initInternal).page q := by
  have hu1 : (m.alloc.set used (m.page used).initInternal).numPages = used + 1 := by
    rw [numPages_set, hm.numPages_alloc, hu]
  have hp0 : (m.alloc.set used (m.page used).initInternal).page 0 = m.page 0 := by
    rw [page_set_ne _ _ h0.ne, page_alloc]
  rw [rootSplitMem, newRoot_page q h0.ne' (by omega) (by omega), hu1, hp0, page_set_self]

/-- The tree above the empty node and the old root. -/
theorem forest_rootSplit {c : ℕ} {stale : Set ℕ} (h : Forest T m used lvl (c ::ₘ 0) stale ∅)
    (hm : m.Tight) (hu : m.numPages = used) (hl : lvl 0 ≠ 0) (hcl : lvl c + 1 = lvl 0)
    (h3 : (m.page 0).numKeys = 3) (hT1 : T used) (hT2 : T (used + 1))
    (hTf : ∀ q, T q → q < filePagesNum) :
    Forest T (rootSplitMem m used) (used + 2) (rootSplit lvl used) (c ::ₘ 0)
      (insert c stale) {used} := by
  have h0 := h.used_pos
  have hc := h.pending_lt (Multiset.mem_cons_self c 0)
  -- first the new right node, then the copy of the old root
  have h1 := h.push_empty (l := lvl 0) hl hT1 (hTf _ hT1) hu
  have hcu : used ≠ 0 := h0.ne'
  have hpend : c ::ₘ 0 + {used} = used ::ₘ c ::ₘ 0 := Multiset.cons_swap c used 0
  rw [hpend] at h1
  unfold rootSplitMem
  set m1 := m.alloc.set used (m.page used).initInternal with hm1
  have hu1 : m1.numPages = used + 1 := by rw [hm1, numPages_set, hm.numPages_alloc, hu]
  have hp0 : m1.page 0 = m.page 0 := by rw [hm1, page_set_ne _ _ hcu.symm, page_alloc]
  have hlvl1 : ∀ q, q ≠ used → Function.update lvl used (lvl 0) q = lvl q :=
    fun q hq => Function.update_of_ne hq _ _
  have hrk : (m1.page used).kids = 0 := by
    rw [hm1, page_set_self,
      kids_of_not_isLeaf (not_isLeaf_of_isInternal (isInternal_initInternal _))]
    unfold children
    rw [numKeys_initInternal, rightChild_initInternal]
    rfl
  have h2 := h1.newRoot (S := insert c stale) hu1 hT2 (hTf _ hT2)
    (by rw [Function.update_self, hlvl1 0 hcu.symm]) (fun he => hcu.symm he) hrk
    (fun _ => by rw [hp0]; exact h3)
    (fun d hd => by
      rw [Multiset.mem_cons.1 hd |>.resolve_right (Multiset.notMem_zero d), hlvl1 c hc.1.ne,
        hlvl1 0 hcu.symm]
      omega)
    (fun q hq hqs => by
      rw [Set.mem_insert_iff, not_or] at hqs
      refine ⟨fun he => ?_, fun he => ?_⟩
      · rcases he with he | he
        · exact hq he
        · exact hqs.2 he
      · exact hqs.1 (Multiset.mem_cons.1 he |>.resolve_right (Multiset.notMem_zero q)))
    (fun he => by rw [Set.mem_singleton_iff] at he; omega)
  rw [hlvl1 0 hcu.symm] at h2
  exact h2

/-- What the rest of the split keeps, since then the leaves are as they were. -/
theorem grows_rootSplit (h0 : 0 < used) (hm : m.Tight) (hu : m.numPages = used) (hl : lvl 0 ≠ 0)
    (hkeep : KeepsLeaves (rootSplit lvl used) (used + 2) (rootSplitMem m used) m') :
    Grows m used lvl m' (used + 2) (rootSplit lvl used) := by
  refine ⟨by omega, fun q hq hq0 => rootSplit_of_lt hq hq0, by rw [rootSplit_zero]; omega,
    fun q hq hq' => ?_,
    fun q hq hq0 hql => ?_⟩
  · obtain rfl | rfl : q = used ∨ q = used + 1 := by omega
    · rw [rootSplit_new h0]
      exact hl
    · rw [rootSplit_left]
      exact hl
  · rw [hkeep q (by omega) (by rw [rootSplit_of_lt hq hq0]; exact hql), rootSplitMem_page hm hu h0,
      if_neg hq0,
      if_neg (by omega), if_neg hq.ne]
    have hpage : (m.alloc.set used (m.page used).initInternal).page q = m.page q := by
      rw [page_set_ne _ _ hq.ne, page_alloc]
    rw [hpage]
    split
    · exact erase_store_parent _ _
    · rfl

end

/-- The branch of a split that splits the root. -/
theorem wp_split_root {fuel c : ℕ} {stale : Set ℕ} (h : Forest T m used lvl (c ::ₘ 0) stale ∅)
    (hm : m.Tight) (hu : m.numPages = used) (hl : lvl 0 ≠ 0) (hcl : lvl c + 1 = lvl 0)
    (h3 : (m.page 0).numKeys = 3) (hK : ∀ i < 3, K i) (hTf : ∀ q, T q → q < filePagesNum)
    (hF : ∀ e m, F (.outOfRange e) m) (hstray : T used → T (used + 1) → ∀ m, F .outOfPage m)
    (hQ : ∀ m', Ends T m used lvl stale m' → Q () m') :
    wp (handler K T) (internalNodeSplitAndInsert (internalNodeInsert fuel) fuel 0 c) Q F m := by
  have h0 := h.used_pos
  have hc := h.pending_lt (Multiset.mem_cons_self c 0)
  have hcached := cached_of_tight hm hu
  have hf0 := h.fits 0 h0
  have hnode := hf0.node hl (Set.notMem_empty 0)
  have hroot : (m.page 0).isRoot = true := hf0.root.2 rfl
  unfold internalNodeSplitAndInsert
  simp only [wp_bind, wp_getPage (h.allowed 0 h0), touch_of_cached (hcached 0 h0),
    wp_getNodeMaxKey _ (hnode.maxOk hK), wp_getPage (h.allowed c hc.1),
    touch_of_cached (hcached c hc.1),
    wp_getNodeMaxKey _ (h.maxOk hK hc.1 (Set.notMem_empty c)), wp_getUnusedPage,
    wp_isNodeRoot, hroot,
    if_true]
  refine wp_createNewRoot_internal hm (by omega) (h.allowed 0 h0) hnode hK (fun q hq => ?_)
    (fun _ => hF) fun hT1 hT2 => ?_
  · have hq' : q ∈ (m.page 0).kids := by rw [hnode.kids]; exact hq
    have := h.kid_lt h0 hq'
    exact ⟨by omega, this.2, h.allowed q this.1⟩
  rw [hu] at hT1 hT2 ⊢
  change wp _ _ _ _ (rootSplitMem m used)
  -- the new root leads to the old one, which is at the page behind the empty node
  have h2 := h.forest_rootSplit hm hu hl hcl h3 hT1 hT2 hTf
  have hm2 := rootSplitMem_tight used hm
  have hu2 := rootSplitMem_numPages hm hu
  have hpage := rootSplitMem_page hm hu h0
  have hcached2 := cached_of_tight hm2 hu2
  have hleft : (rootSplitMem m used).page (used + 1) = (m.page 0).asLeft := by
    rw [hpage, if_neg (by omega), if_pos rfl]
  have hspec :
      IsNewRoot (m.page 0) (used + 1) (m.page 0).maxKey used ((rootSplitMem m used).page 0) := by
    rw [hpage, if_pos rfl]
    exact asRoot_spec _ _ _ _ (h2.lt_two_pow (by omega)) (maxKey_lt _) (h2.lt_two_pow (by omega))
  have hslot : ((rootSplitMem m used).page 0).child 0 = used + 1 := by
    have hslot := congrArg Prod.fst (hspec.slot 0 (by omega))
    rwa [if_pos rfl] at hslot
  unfold rootPageNum
  simp only [wp_getPage (h.allowed 0 h0), touch_of_cached (hcached2 0 (by omega))]
  rw [wp_internalNodeChild_cell (by rw [hspec.numKeys]; omega) (by omega)
    (by rw [hslot]; exact h2.ne_invalid (by omega)), wp_load (access_internalCell (by omega)),
    load_internalCell, hslot, wp_getPage hT2, touch_of_cached (hcached2 _ (by omega))]
  refine h2.wp_splitHalves (S := stale) hcached2 (by omega) (by omega) (by omega) (by omega) h0.ne'
    (by rw [rootSplit_left, rootSplit_new h0]) (by rw [rootSplit_left]; exact hl)
    (by rw [hleft, (SameHeader.asLeft _).numKeys (by simp)]; exact h3) (by omega)
    (by rw [rootSplit_zero]; omega)
    (by rw [rootSplit_left, rootSplit_of_lt hc.1 hc.2]; exact hcl) (fun q hq hqs hqi => ?_) hK
    (hstray hT1 hT2)
    fun m' h' hcache' hpages' hkeep' => ?_
  · rcases hqi with hqi | hqi
    · exact hq hqi
    · exact hqs hqi
  · have hu' : m'.numPages = used + 2 := hpages'.trans hu2
    refine hQ m' ⟨fun q => by rw [hcache', hu']; rw [← hu2]; exact hm2 q,
      rootSplit lvl used, ?_, ?_⟩
    · rw [hu']
      exact h'
    · rw [hu']
      exact grows_rootSplit h0 hm hu hl hkeep'

/-- The branch of a split that splits another node. -/
theorem wp_split_inner {fuel p c : ℕ} {stale : Set ℕ} (h : Forest T m used lvl (c ::ₘ 0) stale ∅)
    (hm : m.Tight) (hu : m.numPages = used) (hp : p < used) (hp0 : p ≠ 0) (hcl : lvl c + 1 = lvl p)
    (h3 : (m.page p).numKeys = 3) (hstale : ∀ e ∈ stale, lvl e < lvl p) (hs0 : 0 ∉ stale)
    (hK : ∀ i < 3, K i) (hTf : ∀ q, T q → q < filePagesNum) (hF : ∀ e m, F (.outOfRange e) m)
    (hstray : T used → ∀ m, F .outOfPage m)
    (ih : T used → ∀ g (m' : Mem) used' lvl' stale' c' (Q : Unit → Mem → Prop),
      Forest T m' used' lvl' (c' ::ₘ 0) stale' ∅ → m'.Tight → m'.numPages = used' → g < used' →
      lvl' c' + 1 = lvl' g → (∀ e ∈ stale', lvl' e < lvl' g) → 0 ∉ stale' → 2 ≤ lvl' g →
      lvl' 0 = lvl 0 → lvl' g = lvl p + 1 →
      (∀ m'', Ends T m' used' lvl' stale' m'' → Q () m'') →
      wp (handler K T) (internalNodeInsert fuel g c') Q F m')
    (hQ : ∀ m', Ends T m used lvl stale m' → Q () m') :
    wp (handler K T) (internalNodeSplitAndInsert (internalNodeInsert fuel) fuel p c) Q F m := by
  have h0 := h.used_pos
  have hc := h.pending_lt (Multiset.mem_cons_self c 0)
  have hcached := cached_of_tight hm hu
  have hf := h.fits p hp
  have hl : lvl p ≠ 0 := by omega
  have hnode := hf.node hl (Set.notMem_empty p)
  have hps : p ∉ stale := fun he => lt_irrefl _ (hstale p he)
  have hroot : (m.page p).isRoot = false := by
    rw [← Bool.not_eq_true]; exact fun he => hp0 (hf.root.1 he)
  obtain ⟨hg, hgl⟩ := hf.parent hp0 hps
  have hpu : p ≠ used := hp.ne
  unfold internalNodeSplitAndInsert
  simp only [wp_bind, wp_getPage (h.allowed p hp), touch_of_cached (hcached p hp),
    wp_getNodeMaxKey _ (hnode.maxOk hK), wp_getPage (h.allowed c hc.1),
    touch_of_cached (hcached c hc.1),
    wp_getNodeMaxKey _ (h.maxOk hK hc.1 (Set.notMem_empty c)), wp_getUnusedPage,
    wp_isNodeRoot, hroot,
    Bool.false_eq_true, if_false, wp_load (access_header .parent), load_parent,
    wp_getPage (h.allowed _ hg), touch_of_cached (hcached _ hg)]
  rw [hu]
  by_cases hT : T used
  · rw [wp_getPage hT]
    have halloc : m.touch used = m.alloc := by rw [← hu]; rfl
    rw [halloc, wp_initializeInternalNode, page_alloc]
    have h1 := h.push_empty (l := lvl p) hl hT (hTf _ hT) hu
    have hpend : c ::ₘ 0 + {used} = c ::ₘ used ::ₘ 0 := rfl
    rw [hpend] at h1
    set m1 := m.alloc.set used (m.page used).initInternal with hm1
    have ht1 : m1.Tight := hm.alloc.set used _
    have hu1 : m1.numPages = used + 1 := by rw [hm1, numPages_set, hm.numPages_alloc, hu]
    have hcached1 := cached_of_tight ht1 hu1
    have hlq : ∀ q < used, Function.update lvl used (lvl p) q = lvl q :=
      fun q hq => Function.update_of_ne hq.ne _ _
    have hln : Function.update lvl used (lvl p) used = lvl p := Function.update_self _ _ _
    have hp1 : m1.page p = m.page p := by rw [hm1, page_set_ne _ _ hpu, page_alloc]
    refine h1.wp_splitHalves (S := insert used stale) hcached1 (by omega) (by omega) hpu hp0 h0.ne'
      (by rw [hlq p hp, hln]) (by rw [hlq p hp]; exact hl) (by rw [hp1]; exact h3)
      (show (m.page p).parent < used + 1 by omega) (by rw [hlq _ hg]; omega)
      (by rw [hlq p hp, hlq c hc.1]; exact hcl) (fun _ _ => id) hK (hstray hT)
      fun m2 h2 hcache2 hpages2 hkeep2 => ?_
    have ht2 : m2.Tight := fun q => by rw [hcache2, hpages2]; exact ht1 q
    have hu2 : m2.numPages = used + 1 := hpages2.trans hu1
    have hpi : p ∉ insert used stale := fun he => by
      rcases he with he | he
      · exact hpu he
      · exact hps he
    obtain ⟨hg2, hgl2⟩ := (h2.fits p (by omega)).parent hp0 hpi
    have hgrow : Grows m used lvl m2 (used + 1) (Function.update lvl used (lvl p)) := by
      refine ⟨by omega, fun q hq _ => hlq q hq, by rw [hlq 0 h0], fun q hq hq' => ?_,
        fun q hq _ hql => ?_⟩
      · obtain rfl : q = used := by omega
        rw [hln]; exact hl
      · rw [hkeep2 q (by omega) (by rw [hlq q hq]; exact hql), hm1, page_set_ne _ _ hq.ne,
          page_alloc]
    -- the new node goes to the parent, one level up
    refine ih hT _ m2 (used + 1) _ (insert used stale) used _ h2 ht2 hu2 hg2
      (by rw [hgl2, hln, hlq p hp])
      (fun e he => ?_) (fun he => ?_) (by rw [hgl2, hlq p hp]; omega) (hlq 0 h0)
      (by rw [hgl2, hlq p hp]) fun m3 h3' => ?_
    · rw [hgl2, hlq p hp]
      rcases he with rfl | he
      · rw [hln]; omega
      · have := hstale e he
        by_cases heu : e = used
        · rw [heu, hln]; omega
        · rw [Function.update_of_ne heu]; omega
    · rcases he with he | he
      · exact h0.ne he
      · exact hs0 he
    · obtain ⟨ht3, lvl3, hf3, hg3⟩ := h3'
      obtain ⟨hpar, hparl⟩ := (hf3.fits p (by have := hg3.used_le; omega)).parent hp0 hpi
      have hle3 := hg3.used_le
      have hlp3 := hg3.level p (by omega) hp0
      have hln3 := hg3.level used (by omega) h0.ne'
      rw [wp_store (access_header .parent)]
      refine hQ _ ⟨ht3.set _ _, lvl3, ?_, ?_⟩
      · refine hf3.store_parent (S := stale) (by show used < m3.numPages; omega) hpar ?_
          fun q hq hqs hqi => ?_
        · rw [hparl, hlp3, hln3, hln, hlq p hp]
        · rcases hqi with hqi | hqi
          · exact hq hqi
          · exact hqs hqi
      · exact (hgrow.trans hg3 h0).trans (.of_keeps (.store_parent _ _)) h0
  · rw [wp_getPage_of_not hT]; exact hF _ _

/-- One call: a node with room takes the child, a full one is split. -/
theorem wp_insert_step {split : ℕ → ℕ → Prog ℕ Unit} {fuel p c : ℕ} {stale : Set ℕ}
    (h : Forest T m used lvl (c ::ₘ 0) stale ∅) (hm : m.Tight) (hu : m.numPages = used)
    (hp : p < used) (hcl : lvl c + 1 = lvl p) (hK : ∀ i < 3, K i)
    (hexit : p = 0 → lvl 0 = 1 → (m.page p).numKeys < 3 →
      ((m.page (m.page p).rightChild).maxKey < (m.page c).maxKey ∨
        (m.page p).findChild (m.page c).maxKey = (m.page p).numKeys) →
      (m.page p).child (m.page p).numKeys = invalidPageNum → ∀ e m', F (.exit e) m')
    (hfull : (m.page p).numKeys = 3 → wp (handler K T) (split p c) Q F m)
    (hQ : ∀ m', Ends T m used lvl stale m' → Q () m') :
    wp (handler K T) (internalNodeInsertStep split fuel p c) Q F m := by
  have hl : lvl p ≠ 0 := by omega
  have hcached := cached_of_tight hm hu
  have hle := ((h.fits p hp).node hl (Set.notMem_empty p)).le
  by_cases hn : (m.page p).numKeys < 3
  · refine h.wp_insert_room hcached hp hcl hn hK (fun hp0 hl0 => hexit hp0 hl0 hn)
      fun a' ha' _ => ?_
    have h' := h.addChild hp (Set.notMem_empty p) hcl hn ha'
    refine hQ _ ⟨hm.set p a', lvl, ?_, ?_⟩
    · rw [numPages_set, hu]; exact h'
    · rw [numPages_set, hu]; exact .of_keeps (.set hl a')
  · have h3 : (m.page p).numKeys = 3 := by omega
    exact h.wp_insert_full hcached hp h3 hK (hfull h3)

/-- **Insertion into the tree keeps its shape.** Where a page is left for a split, it may end
outside a page. The recursion goes up to the root at most. -/
theorem wp_internalNodeInsert_within (hK : ∀ i < 3, K i) (hTf : ∀ q, T q → q < filePagesNum)
    (hF : ∀ e m, F (.outOfRange e) m) :
    ∀ fuel p (m : Mem) used lvl stale c (Q : Unit → Mem → Prop),
      Forest T m used lvl (c ::ₘ 0) stale ∅ → m.Tight → m.numPages = used → p < used →
      lvl c + 1 = lvl p → (∀ e ∈ stale, lvl e < lvl p) → 0 ∉ stale →
      (fuel + lvl p ≤ lvl 0 → ∀ m, F .noReturn m) →
      (p = 0 → lvl 0 = 1 → (m.page p).numKeys < 3 →
        ((m.page (m.page p).rightChild).maxKey < (m.page c).maxKey ∨
          (m.page p).findChild (m.page c).maxKey = (m.page p).numKeys) →
        (m.page p).child (m.page p).numKeys = invalidPageNum → ∀ e m', F (.exit e) m') →
      ((m.page p).numKeys = 3 → T used → (p = 0 → T (used + 1)) → ∀ m, F .outOfPage m) →
      (∀ m', Ends T m used lvl stale m' → Q () m') →
      wp (handler K T) (internalNodeInsert fuel p c) Q F m := by
  intro fuel
  induction fuel with
  | zero =>
    intro p m used lvl stale c Q h hm hu hp hcl _ _ hdeep hexit _ hQ
    have hle : lvl p ≤ lvl 0 := by
      refine h.levels.le_root_of_higher (fun c' hc' => ⟨p, Finset.mem_range.2 hp, ?_⟩) p
        (Finset.mem_range.2 hp)
      rw [Multiset.mem_cons.1 hc' |>.resolve_right (Multiset.notMem_zero c')]
      omega
    refine h.wp_insert_step hm hu hp hcl hK hexit (fun _ => ?_) hQ
    exact hdeep (by omega) m
  | succ fuel ih =>
    intro p m used lvl stale c Q h hm hu hp hcl hstale hs0 hdeep hexit hstray hQ
    refine h.wp_insert_step hm hu hp hcl hK hexit (fun h3 => ?_) hQ
    by_cases hp0 : p = 0
    · subst hp0
      exact h.wp_split_root hm hu (by omega) hcl h3 hK hTf hF
        (fun hT hT' => hstray h3 hT fun _ => hT') hQ
    · have hstray' : T used → ∀ m, F .outOfPage m := fun hT => hstray h3 hT fun h0 => absurd h0 hp0
      refine h.wp_split_inner hm hu hp hp0 hcl h3 hstale hs0 hK hTf hF hstray' ?_ hQ
      -- above the node that splits there is no root whose slots are unused
      intro hT g m' used' lvl' stale' c' Q' h' hm' hu' hg hcl' hst' hs0' hl2 hroot hlg hQ'
      exact ih g m' used' lvl' stale' c' Q' h' hm' hu' hg hcl' hst' hs0'
        (fun hle => hdeep (by omega))
        (fun hg0 hl0 => by rw [hg0, hl0] at hl2; omega) (fun _ _ _ => hstray' hT) hQ'

end Forest

end ToySQL
