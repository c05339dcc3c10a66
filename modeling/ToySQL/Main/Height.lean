import ToySQL.Lib.Layers
import ToySQL.Main.Shape

/-!
# The height of a table

* `Reaches.shallow`: all leaves have the same depth, which is logarithmic in the number of rows,
  and `table_find` goes exactly that deep. No table has a height over 9.
-/

namespace ToySQL

open Program Page Levelled

/-- All leaves below the page are this many levels down. -/
inductive HasHeight (page : ℕ → Page) : ℕ → ℕ → Prop where
  | leaf {p : ℕ} : (page p).isLeaf = true → HasHeight page p 0
  | node {p height : ℕ} : (page p).isInternal = true →
    (∀ c ∈ (page p).children, HasHeight page c height) →
      HasHeight page p (height + 1)

/-- A table with this many rows: its height, its leaves and pages, and how deep a lookup goes. -/
structure Pager.Shallow (s : Pager) (rows height : ℕ) : Prop where
  uniform : HasHeight s.page rootPageNum height
  leaves : 2 ^ height ≤ s.leaves.length ∧ s.leaves.length ≤ (internalNodeMaxCells + 1) ^ height
  capacity : rows ≤ leafNodeMaxCells * s.leaves.length
  filled : height ≠ 0 → leafNodeLeftSplitCount * s.leaves.length ≤ rows
  pages : s.numPages + 1 ≤ 2 * s.leaves.length
  bounded : height ≤ 9
  finds : ∀ fuel key, height ≤ fuel + 1 → ∃ cursor s', (tableFind fuel key).run handler s =
    (.ok cursor, s') ∧
    cursor.pageNum ∈ s.leaves
  deep : ∀ fuel key, fuel + 1 < height → ∃ s', (tableFind fuel key).run handler s =
    (.error .noReturn, s')

variable {c fuel : ℕ} {uninit : Addr → Page} {ops : List Insertion} {s : Pager} {m : Mem}
    {lvl : ℕ → ℕ}
  {chain : List ℕ} {p : ℕ}

namespace Tree

variable {T : ℕ → Prop}

/-- The leaves are the lowest layer. -/
theorem card_leaves (h : Tree T m lvl chain) :
    (layer (Finset.range m.numPages) lvl 0).card = chain.length := by
  rw [← List.toFinset_card_of_nodup h.leaves.nodup]
  congr 1
  ext p
  rw [mem_layer, Finset.mem_range, List.mem_toFinset, h.leaves.mem]

/-- An internal node has a right child and one to three others. -/
theorem card_kids (h : Tree T m lvl chain) (hp : p < m.numPages) (hl : lvl p ≠ 0) :
    2 ≤ (m.page p).kids.card ∧ (m.page p).kids.card ≤ 4 := by
  have hnode := (h.shape.fits p hp).node hl (Set.notMem_empty p)
  have hpos := hnode.pos
  have hle := hnode.le
  have hlen : (m.page p).children.length = (m.page p).numKeys + 1 := by simp [children]
  rw [hnode.kids, Multiset.coe_card, hlen]
  omega

/-- A node has at most four children. -/
theorem card_kids_le (h : Tree T m lvl chain) (hp : p < m.numPages) : (m.page p).kids.card ≤ 4 := by
  by_cases hl : lvl p = 0
  · rw [kids_of_isLeaf ((h.shape.fits p hp).leaf hl).1]
    exact Nat.zero_le 4
  · exact (h.card_kids hp hl).2

/-- How many leaves there are. -/
theorem leaves_bounds (h : Tree T m lvl chain) :
    2 ^ lvl 0 ≤ chain.length ∧ chain.length ≤ 4 ^ lvl 0 := by
  have hlow :=
    h.shape.levels.pow_le_card (fun p hp hl => (h.card_kids (Finset.mem_range.1 hp) hl).1)
      (lvl 0) le_rfl
  have hhigh :=
    h.shape.levels.card_le_pow (fun p hp => h.card_kids_le (Finset.mem_range.1 hp)) (lvl 0) le_rfl
  rw [Nat.sub_self, h.card_leaves] at hlow hhigh
  exact ⟨hlow, hhigh⟩

/-- A tree has fewer inner nodes than leaves. -/
theorem numPages_lt (h : Tree T m lvl chain) : m.numPages + 1 ≤ 2 * chain.length := by
  have hle := h.shape.levels.card_le fun p hp hl => (h.card_kids (Finset.mem_range.1 hp) hl).1
  rwa [h.card_leaves, Finset.card_range] at hle

/-- The file has no room for ten levels of internal nodes. -/
theorem height_le (h : Tree T m lvl chain) : lvl 0 ≤ 9 := by
  by_contra hgt
  have hd : ∀ p ∈ Finset.range m.numPages, lvl p ≠ 0 → 2 ≤ (m.page p).kids.card :=
    fun p hp hl => (h.card_kids (Finset.mem_range.1 hp) hl).1
  have h0 := h.shape.levels.pow_le_card hd (lvl 0) le_rfl
  have h1 := h.shape.levels.pow_le_card hd (lvl 0 - 1) (Nat.sub_le _ _)
  have hlevel : lvl 0 - (lvl 0 - 1) = 1 := by omega
  have hcard :
      (layer (Finset.range m.numPages) lvl 0).card +
      (layer (Finset.range m.numPages) lvl 1).card ≤ _ :=
    card_layers_le (by decide)
  rw [Nat.sub_self] at h0
  rw [hlevel] at h1
  rw [Finset.card_range] at hcard
  have hpow : 2 ^ 10 ≤ 2 ^ lvl 0 := Nat.pow_le_pow_right (by decide) (by omega)
  have hpow' : 2 ^ 9 ≤ 2 ^ (lvl 0 - 1) := Nat.pow_le_pow_right (by decide) (by omega)
  have hused := h.shape.used_le
  unfold filePagesNum at hused
  omega

/-- The rows are counted leaf by leaf. -/
theorem card_rows (h : Tree T m lvl chain) :
    m.rows.card = (chain.map fun p => (m.page p).numCells).sum := by
  rw [h.rows_eq]
  unfold Mem.rowsOn
  rw [Multiset.coe_card, List.length_flatMap]
  simp only [length_rows]

/-- A leaf has at most 15 rows. -/
theorem rows_le (h : Tree T m lvl chain) : m.rows.card ≤ 15 * chain.length := by
  rw [h.card_rows]
  refine (List.sum_le_card_nsmul _ 15 fun n hn => ?_).trans ?_
  · obtain ⟨p, hp, rfl⟩ := List.mem_map.1 hn
    obtain ⟨hlt, hl⟩ := (h.leaves.mem p).1 hp
    exact (h.leaf_facts hlt hl).2.1
  · rw [List.length_map, smul_eq_mul, Nat.mul_comm]

/-- Below a root that is a node a leaf has at least 8 rows. -/
theorem rows_ge (h : Tree T m lvl chain) (hl : lvl 0 ≠ 0) : 8 * chain.length ≤ m.rows.card := by
  rw [h.card_rows]
  refine le_trans ?_ (List.card_nsmul_le_sum _ 8 fun n hn => ?_)
  · rw [List.length_map, smul_eq_mul, Nat.mul_comm]
  · obtain ⟨p, hp, rfl⟩ := List.mem_map.1 hn
    apply h.leaves.filled p hp
    rintro rfl
    exact hl ((h.leaves.mem 0).1 hp).2

end Tree

namespace Grown

/-- A page of level `height` is the root of a subtree of that height. By induction on it. -/
theorem hasHeight (h : Grown c s m lvl chain) :
    ∀ height p, p < s.numPages → lvl p = height → HasHeight s.page p height := by
  intro height
  induction height with
  | zero => exact fun p hp hl => .leaf ((h.isLeaf_iff hp).2 hl)
  | succ height ih =>
    intro p hp hl
    have hi : (s.page p).isInternal = true := (h.isInternal_iff hp).2 (by omega)
    apply HasHeight.node hi
    intro q hq
    have hchild : s.Child p q := ⟨hi, hq⟩
    have hbelow := h.tree.shape.levels.below p (Finset.mem_range.2 (h.numPages ▸ hp)) q
      ((h.child_iff hp).1 hchild)
    exact ih q (h.child_lt hp hchild).1 (by omega)

/-- **How deep a lookup goes.** -/
theorem run_tableFind (h : Grown c s m lvl chain) (hc : filePagesNum ≤ c) (fuel key : ℕ) :
    (lvl 0 ≤ fuel + 1 → ∃ cursor s', (tableFind fuel key).run Pager.handler s = (.ok cursor, s') ∧
      cursor.pageNum ∈ s.leaves) ∧
      (fuel + 1 < lvl 0 → ∃ s', (tableFind fuel key).run Pager.handler s =
        (.error .noReturn, s')) := by
  obtain ⟨r, s', m', hrun, hflat, -⟩ := h.sim.run_large (K := fun _ => True) hc fun _ =>
    match_tableFind fuel key
  rw [Pager.strict_true] at hrun
  have hwp : wp (Mem.handler (fun _ => True) OfFile) (tableFind fuel key)
      (fun cursor _ => lvl 0 ≤ fuel + 1 ∧ cursor.pageNum = descend m.page key (lvl 0) 0)
      (fun e _ => fuel + 1 < lvl 0 ∧ e = .noReturn) m :=
    h.tree.shape.wp_tableFind fuel key (fun _ _ => trivial) (fun _ hle _ => ⟨hle, rfl⟩) fun _ hlt =>
      ⟨hlt, rfl⟩
  rw [hrun]
  cases r with
  | ok cursor =>
    obtain ⟨hle, hpage⟩ := wp_ok hwp hflat
    refine ⟨fun _ => ⟨cursor, s', rfl, ?_⟩, fun hlt => absurd hlt (not_lt.2 hle)⟩
    obtain ⟨hp, hl⟩ := h.tree.leaf_spec key
    rw [hpage, h.mem_leaves, h.numPages]
    exact ⟨hp, hl⟩
  | error e =>
    obtain ⟨hlt, rfl⟩ := wp_error hwp hflat
    exact ⟨fun hle => absurd hlt (not_lt.2 hle), fun _ => ⟨s', rfl⟩⟩

end Grown

/-- **A table is shallow.** -/
theorem Reaches.shallow (hc : filePagesNum ≤ c) (h : Reaches c uninit fuel ops s) :
    ∃ height, s.Shallow ops.length height := by
  obtain ⟨m, lvl, chain, hg, hkeys⟩ := h.grown hc
  have hlen : s.leaves.length = chain.length := by
    rw [hg.leaves]
    exact hg.tree.leaves_perm.length_eq
  have hrows : m.rows.card = ops.length := by
    have hcard := congrArg Multiset.card hkeys
    rwa [Multiset.card_map, Multiset.coe_card, List.length_map] at hcard
  have h0 : 0 < s.numPages := by
    rw [hg.numPages]
    exact hg.tree.shape.used_pos
  refine ⟨lvl 0, hg.hasHeight (lvl 0) 0 h0 rfl, ?_, ?_, fun hl => ?_, ?_, hg.tree.height_le,
    fun fuel key => (hg.run_tableFind hc fuel key).1, fun fuel key =>
      (hg.run_tableFind hc fuel key).2⟩
  · rw [hlen]
    exact hg.tree.leaves_bounds
  · rw [hlen, ← hrows]
    exact hg.tree.rows_le
  · rw [hlen, ← hrows]
    exact hg.tree.rows_ge hl
  · rw [hlen, hg.numPages]
    exact hg.tree.numPages_lt

/-- Sixteen rows fill two leaves. -/
theorem Reaches.shallow_plain :
    ∃ height, (runTable filePagesNum 0 ((List.range 16).map plain)).2.Shallow
    ((List.range 16).map plain).length height :=
  Reaches.shallow le_rfl (reaches_runTable (by decide +kernel))

end ToySQL
