import ToySQL.Proof.Find

/-!
# Runs, in flat memory

A table over a new file starts as a root leaf without rows, and every insertion that
comes back keeps the tree: `Tree.wp_insertRow` is the step, `Tree.wp_insertRows` the run
and `wp_newTable` the run from the start.
-/

namespace ToySQL

open Program Page Mem

/-- The root leaf of a new table. -/
def Page.newTable : Page := Page.store (Page.initLeaf (Bytes.zero pageSize)) .isRoot 1

/-- The first page is an empty leaf, the root, with no leaf after it. -/
theorem Page.newTable_header :
    newTable.isLeaf = true ∧ newTable.isRoot = true ∧ newTable.numCells = 0 ∧
    newTable.nextLeaf = 0 := by
  unfold isLeaf type isRoot numCells nextLeaf newTable initLeaf
  simp [NodeType.ofByte]

variable {K T : ℕ → Prop} [DecidablePred K] [DecidablePred T] {m : Mem} {lvl : ℕ → ℕ}
    {chain : List ℕ}
  {F : Fault → Mem → Prop} {Q : Unit → Mem → Prop}

/-- The flat memory of a new table. -/
def Mem.newTable : Mem := (Mem.empty.touch 0).set 0 Page.newTable

omit [DecidablePred T] in
theorem tree_newTable (hT : T 0) : Tree T Mem.newTable (fun _ => 0) [0] := by
  -- page 0 is the only page in use
  obtain ⟨hleaf, hroot, hcells, hnext⟩ := Page.newTable_header
  have hp0 : Mem.newTable.page 0 = Page.newTable := page_set_self _ _ _
  have hpq : ∀ q, q ≠ 0 → Mem.newTable.page q = Bytes.zero pageSize := fun q hq => by
    unfold Mem.newTable; rw [page_set_ne _ _ hq, page_touch]; rfl
  have hkeys : Page.newTable.keys = [] := by rw [keys_eq, hcells]; rfl
  refine ⟨fun p => ?_,
    ⟨fun p hp => ?_, ⟨?_, ?_, fun p _ c hc => ?_⟩, fun q hq => ?_, fun p hp => ?_, ?_⟩,
    ⟨by simp, fun p => ?_, ?_, fun p hp => ?_, fun p hp hp0 => ?_⟩⟩
  · show Function.update (fun _ => false) 0 true p = decide (p < 1)
    by_cases hp : p = 0
    · rw [hp]; rfl
    · rw [Function.update_of_ne hp, eq_comm, decide_eq_false_iff_not]; omega
  · obtain rfl : p = 0 := Nat.lt_one_iff.1 hp
    rw [hp0]
    exact ⟨fun _ => ⟨hleaf, by omega⟩, fun h => absurd rfl h, fun h => absurd rfl h,
      fun h => absurd h (Set.notMem_empty 0), ⟨fun _ => rfl, fun _ => hroot⟩, fun h => absurd rfl h,
      fun h => absurd rfl h⟩
  · exact Finset.mem_range.2 Nat.one_pos
  · show ∑ p ∈ Finset.range 1, (Mem.newTable.page p).kids + 0 = ((Finset.range 1).erase 0).val
    rw [Finset.sum_range_one, hp0, kids_of_isLeaf hleaf]
    rfl
  · by_cases hp : p = 0
    · rw [hp, hp0, kids_of_isLeaf hleaf] at hc; exact absurd hc (Multiset.notMem_zero c)
    · obtain rfl : p = 0 := Nat.lt_one_iff.1 (Finset.mem_range.1 ‹_›)
      exact absurd rfl hp
  · exact hpq q (Nat.one_le_iff_ne_zero.1 hq)
  · obtain rfl : p = 0 := Nat.lt_one_iff.1 hp
    exact hT
  · show 1 ≤ filePagesNum
    decide
  · rw [List.mem_singleton]
    exact ⟨fun h => ⟨by rw [h]; exact Nat.one_pos, rfl⟩, fun h => Nat.lt_one_iff.1 h.1⟩
  · show (Mem.newTable.page 0).nextLeaf = 0
    rw [hp0, hnext]
  · rw [List.mem_singleton.1 hp, hp0, hkeys]; exact List.Pairwise.nil
  · exact absurd (List.mem_singleton.1 hp) hp0

omit [DecidablePred T] in
theorem rows_newTable (hT : T 0) : Mem.newTable.rows = 0 := by
  have hp0 : Mem.newTable.page 0 = Page.newTable := page_set_self _ _ _
  have hrows : Page.newTable.rows = [] := by
    rw [Page.rows_eq, Page.newTable_header.2.2.1]; rfl
  rw [(tree_newTable hT).rows_eq]
  unfold rowsOn
  rw [List.flatMap_singleton, hp0, hrows]
  rfl

/-- `initialize_table` makes the new table. -/
theorem wp_initializeTable (hT : T 0) (hQ : Q () Mem.newTable) :
    wp (handler K T) initializeTable Q F Mem.empty := by
  have hcached : ∀ a, ((Mem.empty.touch 0).set 0 a).cached 0 = true := fun a => rfl
  unfold initializeTable rootPageNum
  simp only [wp_bind, wp_getPage hT, wp_initializeLeafNode, touch_of_cached (hcached _),
    wp_setNodeRoot,
    page_set_self, set_set]
  exact hQ

namespace Tree

omit [DecidablePred T] in
/-- The leaf a key belongs to. -/
theorem leaf_spec (h : Tree T m lvl chain) (key : ℕ) :
    descend m.page key (lvl 0) 0 < m.numPages ∧ lvl (descend m.page key (lvl 0) 0) = 0 :=
  h.shape.descend_leaf key _ 0 h.shape.used_pos le_rfl

/-- Whatever happens to the values, the keys gain the new one. -/
theorem InsertsRow.keys {m' : Mem} {p : ℕ} {x : ℕ × Bytes rowSize} (h : InsertsRow m p x m')
    (hn : (m.page p).numCells ≤ 15) :
    m'.rows.map Prod.fst = x.1 ::ₘ m.rows.map Prod.fst := by
  by_cases hq : (m.page p).numCells < 15 ∨ p = 0
  · rw [h.quiet hq, Multiset.map_cons]
  · rw [not_or] at hq
    obtain ⟨l, r, hh, hrows, -⟩ := h.stray (by omega) hq.2
    have hkey : ((l.stray (m.page p).maxKey).row 0).1 = (l.row 0).1 :=
      key_stray hh.numCells.le (by omega)
    have := congrArg (Multiset.map Prod.fst) hrows
    rw [Multiset.map_add, Multiset.map_add, Multiset.map_singleton, Multiset.map_singleton, hkey,
      Multiset.map_cons] at this
    exact add_right_cancel this

/-- **An insertion keeps the tree**, or ends in a fault: outside a page, if an internal node is
full, or at a slot that holds `INVALID_PAGE_NUM`. Its recursions end. -/
theorem wp_insertRow_within {fuel p : ℕ} {op : Insertion} (h : Tree T m lvl chain)
    (hK : ∀ i < 3, K i)
    (hTf : ∀ q, T q → q < filePagesNum) (hdescend : descend m.page op.key.toNat (lvl 0) 0 = p)
    (hF : ∀ e m, F (.outOfRange e) m) (hdeep : fuel < lvl 0 → ∀ m, F .noReturn m)
    (hstray : (m.page p).numCells = 15 → p ≠ 0 → (m.page (m.page p).parent).numKeys = 3 →
      T (m.numPages + 1) →
      ((m.page p).parent = 0 → T (m.numPages + 2)) → ∀ m', F .outOfPage m')
    (hfirst : (m.page p).numCells = 15 → p = 0 → ∀ l r,
      Halves (m.page p) m.numPages ((m.page p).findCell op.key.toNat) op.cell l r →
      l.key 0 = invalidPageNum → ∀ e m', F (.exit e) m')
    (hslot : (m.page p).numCells = 15 → p ≠ 0 → T m.numPages → ∀ l r,
      Halves (m.page p) m.numPages ((m.page p).findCell op.key.toNat) op.cell l r →
      HitsInvalidSlot m p l r → ∀ e m', F (.exit e) m')
    (hQ : ∀ m' lvl' chain', Tree T m' lvl' chain' → InsertsRow m p op.cell m' →
      InsertsKey m chain p op.key.toNat m' chain' → Q () m') :
    wp (handler K T) (insertRow fuel op) Q F m := by
  subst hdescend
  obtain ⟨hp, hl⟩ := h.leaf_spec op.key.toNat
  unfold insertRow
  rw [wp_bind]
  refine h.shape.wp_tableFind _ _ hK (fun m' _ hv => ?_) fun m' hlt =>
    hdeep (Nat.lt_of_succ_lt hlt) m'
  rw [hv.eq_of_tight h.tight]
  exact h.wp_leafNodeInsert_within hp hl op.key.toNat_lt hK hTf hF hdeep hstray hfirst hslot hQ

/-- The same, whatever the bound on the recursions is. -/
theorem wp_insertRow_of {fuel p : ℕ} {op : Insertion} (h : Tree T m lvl chain) (hK : ∀ i < 3, K i)
    (hTf : ∀ q, T q → q < filePagesNum) (hdescend : descend m.page op.key.toNat (lvl 0) 0 = p)
    (hF : Soft F)
    (hstray : (m.page p).numCells = 15 → p ≠ 0 → (m.page (m.page p).parent).numKeys = 3 →
      T (m.numPages + 1) →
      ((m.page p).parent = 0 → T (m.numPages + 2)) → ∀ m', F .outOfPage m')
    (hfirst : (m.page p).numCells = 15 → p = 0 → ∀ l r,
      Halves (m.page p) m.numPages ((m.page p).findCell op.key.toNat) op.cell l r →
      l.key 0 = invalidPageNum → ∀ e m', F (.exit e) m')
    (hslot : (m.page p).numCells = 15 → p ≠ 0 → T m.numPages → ∀ l r,
      Halves (m.page p) m.numPages ((m.page p).findCell op.key.toNat) op.cell l r →
      HitsInvalidSlot m p l r → ∀ e m', F (.exit e) m')
    (hQ : ∀ m' lvl' chain', Tree T m' lvl' chain' → InsertsRow m p op.cell m' →
      InsertsKey m chain p op.key.toNat m' chain' → Q () m') :
    wp (handler K T) (insertRow fuel op) Q F m :=
  h.wp_insertRow_within hK hTf hdescend hF.outOfRange (fun _ => hF.noReturn) hstray hfirst hslot hQ

/-- **A completed insertion keeps the tree.** -/
theorem wp_insertRow {fuel : ℕ} {op : Insertion} (h : Tree T m lvl chain) (hK : ∀ i < 3, K i)
    (hTf : ∀ q, T q → q < filePagesNum)
    (hQ : ∀ m' lvl' chain', Tree T m' lvl' chain' →
      InsertsRow m (descend m.page op.key.toNat (lvl 0) 0) op.cell m' →
      InsertsKey m chain (descend m.page op.key.toNat (lvl 0) 0) op.key.toNat m' chain' → Q () m') :
    wp (handler K T) (insertRow fuel op) Q (fun _ _ => True) m :=
  h.wp_insertRow_of hK hTf rfl ⟨fun _ _ => trivial, fun _ => trivial⟩ (fun _ _ _ _ _ _ => trivial)
    (fun _ _ _ _ _ _ _ _ => trivial) (fun _ _ _ _ _ _ _ _ _ => trivial) hQ

/-- **Completed insertions keep the tree**, and its keys are those that were inserted. -/
theorem wp_insertRows {fuel : ℕ} (hK : ∀ i < 3, K i) (hTf : ∀ q, T q → q < filePagesNum) :
    ∀ (ops : List Insertion) (m : Mem) lvl chain, Tree T m lvl chain →
      (∀ m' lvl' chain', Tree T m' lvl' chain' →
        m'.rows.map Prod.fst = m.rows.map Prod.fst + ↑(ops.map fun op => op.key.toNat) → Q () m') →
      wp (handler K T) (insertRows fuel ops) Q (fun _ _ => True) m := by
  intro ops
  induction ops with
  | nil =>
    intro m lvl chain h hQ
    exact hQ m lvl chain h (by simp)
  | cons op ops ih =>
    intro m lvl chain h hQ
    unfold insertRows
    rw [wp_bind]
    refine h.wp_insertRow hK hTf fun m1 lvl1 chain1 h1 hrow _ => ?_
    obtain ⟨hp, hl⟩ := h.leaf_spec op.key.toNat
    have hkeys := hrow.keys (h.leaf_facts hp hl).2.1
    refine ih m1 lvl1 chain1 h1 fun m' lvl' chain' h' hk => hQ m' lvl' chain' h' ?_
    rw [hk, hkeys, List.map_cons, ← Multiset.cons_coe, Multiset.cons_add, Multiset.add_cons]
    rfl

end Tree

/-- **A run over a new file.** -/
theorem wp_newTable (fuel : ℕ) (ops : List Insertion) (hK : ∀ i < 3, K i)
    (hTf : ∀ q, T q → q < filePagesNum) (hT : T 0)
    (hQ : ∀ m' lvl' chain', Tree T m' lvl' chain' →
      m'.rows.map Prod.fst = ↑(ops.map fun op => op.key.toNat) → Q () m') :
    wp (handler K T) (do initializeTable; insertRows fuel ops) Q (fun _ _ => True) Mem.empty := by
  rw [wp_bind]
  refine wp_initializeTable hT (Tree.wp_insertRows hK hTf ops _ _ _ (tree_newTable hT) ?_)
  intro m' lvl' chain' h' hk
  refine hQ m' lvl' chain' h' ?_
  rw [hk, rows_newTable hT, Multiset.map_zero, zero_add]

end ToySQL
