import ToySQL.Proof.Reach
import ToySQL.Spec.Insertion

/-!
# One more insertion

* `Grown.leadsTo_iff`: the leaf a key belongs to.
* `Grown.after`: an insertion that completes leads from a tree to a tree, and adds the row to
  the leaf the key belongs to.
-/

namespace ToySQL

open Program Page

/-! ## The separator in the lower half -/

namespace Page

variable {l a r : Page} {new c : ℕ} {x : ℕ × Bytes rowSize}

/-- In a leaf the separators read as words of the text of row 0. -/
theorem sep_eq_word (l : Page) {i : ℕ} (hi : i < 8) : l.sep i = word (l.value 0) i := by
  unfold sep load value word
  rw [Bytes.slice_slice _ (by show i * 8 + 4 ≤ 260; omega), Loc.offset_internalKey (by omega)]
  congr 2
  show 18 + 8 * i = 18 + i * 8
  omega

/-- The search of a leaf as if it were an internal node follows the text of row 0. -/
theorem findChild_eq_wordAt (hn : l.numCells = 8) (key : ℕ) :
    l.findChild key = wordAt (l.value 0) key := by
  have hk : l.numKeys = 8 := hn
  unfold findChild wordAt leafNodeLeftSplitCount
  rw [hk]
  refine searchAll_congr fun i hi => ?_
  unfold cmpSep
  rw [sep_eq_word l hi]

/-- The stray write changes nothing. -/
theorem stray_row_iff (hn : l.numCells = 8) (key : ℕ) :
    (l.stray key).row 0 = l.row 0 ↔ word (l.value 0) (wordAt (l.value 0) key) = l.maxKey := by
  have hle := findChild_le l key
  rw [show l.numKeys = 8 from hn] at hle
  have hfit : 8 * l.findChild key + 4 ≤ rowSize := by
    show _ ≤ 260
    omega
  have hword : word (l.value 0) (l.findChild key) =
      ((l.value 0).slice (8 * l.findChild key) 4).toNat := by
    unfold word
    rw [show l.findChild key * internalNodeCellSize = 8 * l.findChild key from Nat.mul_comm _ _]
    rfl
  rw [← findChild_eq_wordAt hn, hword]
  unfold row
  rw [key_stray hn.le (by omega), value_stray hn.le (by omega), if_pos rfl, Prod.mk.injEq]
  constructor
  · rintro ⟨-, hsplice⟩
    have hslice := congrArg (fun b => (Bytes.slice b (8 * l.findChild key) 4).toNat) hsplice
    simp only [Bytes.slice_splice_same _ _ hfit, Bytes.toNat_ofNat] at hslice
    rw [← hslice]
    exact Nat.mod_eq_of_lt (maxKey_lt l)
  · intro htoNat
    refine ⟨rfl, ?_⟩
    rw [← htoNat, Bytes.ofNat_toNat, Bytes.splice_slice_self]

/-- **The separator in the lower half**, in terms of the leaf before the split. -/
theorem Halves.separatorThere_iff (hh : Halves a new (a.findCell x.1) x l r)
    (ha : a.isLeaf = true) :
    (l.stray a.maxKey).row 0 = l.row 0 ↔ a.SeparatorThere x := by
  have hget : ∀ i < 8, (a.rowsWith x)[i]? = some (l.row i) := by
    intro i hi
    have hrow : l.rows[i]? = some (l.row i) := by
      rw [rows_eq, List.getElem?_map, List.getElem?_range (by rw [hh.numCells]; exact hi)]
      rfl
    rwa [hh.rows, List.getElem?_take, if_pos hi] at hrow
  have hmax : l.maxKey = (l.row 7).1 := by
    unfold maxKey
    rw [if_pos (hh.isLeaf ha), hh.numCells]
    rfl
  rw [stray_row_iff hh.numCells, hmax]
  unfold SeparatorThere
  rw [hget 0 (by decide), hget (leafNodeLeftSplitCount - 1) (by decide)]
  simp only [Option.some.injEq, forall_eq', forall_apply_eq_imp_iff]
  exact Iff.rfl

end Page

/-! ## The way to a leaf -/

/-- A lookup ends in one leaf only. -/
theorem LeadsTo.unique {page : ℕ → Page} {key p q q' : ℕ} (h : LeadsTo page key p q)
    (h' : LeadsTo page key p q') : q = q' := by
  induction h with
  | leaf hl =>
    cases h' with
    | leaf _ => rfl
    | node hl' _ =>
      rw [hl] at hl'
      cases hl'
  | node hl _ ih =>
    cases h' with
    | leaf hl' =>
      rw [hl] at hl'
      cases hl'
    | node _ hrest => exact ih hrest

/-- A descent that ends in a leaf. -/
theorem leadsTo_descend {page : ℕ → Page} {key : ℕ} :
    ∀ n p, (page (descend page key n p)).isLeaf = true →
    LeadsTo page key p (descend page key n p) := by
  intro n
  induction n with
  | zero => exact fun p hl => .leaf hl
  | succ n ih =>
    intro p hl
    unfold descend at hl ⊢
    by_cases hp : (page p).isLeaf = true
    · rw [if_pos hp] at hl ⊢
      exact .leaf hl
    · rw [if_neg hp] at hl ⊢
      exact .node (Bool.eq_false_iff.2 hp) (ih _ hl)

/-- The leaf a lookup ends in is the one the descent finds. -/
theorem LeadsTo.eq_descend {page : ℕ → Page} {key p q : ℕ} (h : LeadsTo page key p q) (n : ℕ)
    (hl : (page (descend page key n p)).isLeaf = true) : q = descend page key n p :=
  h.unique (leadsTo_descend n p hl)

/-! ## Runs -/

/-- **A run that faults** faults in one of its insertions. -/
theorem insertRows_error_iff {fuel : ℕ} {e : Fault} : ∀ {ops : List Insertion} {s : Pager},
    (∃ s', (insertRows fuel ops).run Pager.handler s = (.error e, s')) ↔
      ∃ pre op post s₁, ops = pre ++ op :: post ∧
        (insertRows fuel pre).run Pager.handler s = (.ok (), s₁) ∧
        ∃ s', (insertRow fuel op).run Pager.handler s₁ = (.error e, s') := by
  intro ops
  -- on the list: the first insertion fails, or one of the others
  induction ops with
  | nil =>
    intro s
    constructor
    · rintro ⟨s', hrun⟩
      cases hrun
    · rintro ⟨pre, op, post, -, hops, -⟩
      cases pre with
      | nil => cases hops
      | cons _ _ => cases hops
  | cons op ops ih =>
    intro s
    have hcons : ∀ ops, insertRows fuel (op :: ops) =
        (insertRow fuel op >>= fun _ => insertRows fuel ops : Prog Addr Unit) :=
      fun _ => rfl
    rcases hrun : (insertRow fuel op).run Pager.handler s with ⟨e' | _, s₁⟩
    · constructor
      · rintro ⟨s', hfault⟩
        rw [hcons, run_bind, hrun] at hfault
        exact ⟨[], op, ops, s, rfl, rfl, s', by rw [hrun]; exact hfault⟩
      · rintro ⟨pre, op', post, s₂, hops, hpre, s', hfault⟩
        cases pre with
        | nil =>
          obtain ⟨rfl, rfl⟩ := List.cons.inj hops
          obtain ⟨-, rfl⟩ := Prod.mk.inj hpre
          refine ⟨s', ?_⟩
          rw [hcons, run_bind, hfault]
        | cons op'' pre =>
          obtain ⟨rfl, rfl⟩ := List.cons.inj hops
          rw [hcons, run_bind, hrun] at hpre
          cases hpre
    · have hstep : ∀ ops, (insertRows fuel (op :: ops)).run Pager.handler s =
          (insertRows fuel ops).run Pager.handler s₁ := by
        intro ops
        rw [hcons, run_bind, hrun]
      rw [hstep, ih]
      constructor
      · rintro ⟨pre, op', post, s₂, rfl, hpre, hfault⟩
        exact ⟨op :: pre, op', post, s₂, rfl, (hstep pre).trans hpre, hfault⟩
      · rintro ⟨pre, op', post, s₂, hops, hpre, hfault⟩
        cases pre with
        | nil =>
          obtain ⟨rfl, rfl⟩ := List.cons.inj hops
          obtain ⟨-, rfl⟩ := Prod.mk.inj hpre
          obtain ⟨s', hfault⟩ := hfault
          rw [hrun] at hfault
          cases hfault
        | cons op'' pre =>
          obtain ⟨rfl, rfl⟩ := List.cons.inj hops
          exact ⟨pre, op', post, s₂, rfl, (hstep pre).symm.trans hpre, hfault⟩

/-- The table before the first insertion. -/
theorem exists_initialized {c : ℕ} (hc : filePagesNum ≤ c) (uninit : Addr → Page) :
    ∃ s, initializeTable.run Pager.handler (Pager.init File.empty c uninit) = (.ok (), s) := by
  obtain ⟨r, s, m, hrun, hflat, -⟩ :=
    (sim_init c uninit OfFile).run_large (K := fun _ => True) hc (f := initializeTable)
    fun _ => match_initializeTable
  have hwp :=
    wp_initializeTable (K := fun _ => True) (T := OfFile) (Q := fun _ _ =>
      True) (F := fun _ _ => False)
    (show 0 < filePagesNum by decide) trivial
  obtain ⟨_, m', hok, -⟩ := wp_total hwp
  rw [hok] at hflat
  obtain ⟨rfl, -⟩ := Prod.mk.inj hflat
  rw [Pager.strict_true] at hrun
  exact ⟨s, hrun⟩

/-- **A run over a new file that faults** faults in an insertion from a state it reaches. -/
theorem reaches_error_iff {c fuel : ℕ} {uninit : Addr → Page} {ops : List Insertion} {e : Fault}
    (hc : filePagesNum ≤ c) :
    (∃ s', Program.run Pager.handler (do initializeTable; insertRows fuel ops)
        (Pager.init File.empty c uninit) = (.error e, s')) ↔
      ∃ pre op post s, ops = pre ++ op :: post ∧ Reaches c uninit fuel pre s ∧
        ∃ s', (insertRow fuel op).run Pager.handler s = (.error e, s') := by
  obtain ⟨s₀, hinit⟩ := exists_initialized hc uninit
  have hrun : ∀ ops, Program.run Pager.handler (do initializeTable; insertRows fuel ops)
        (Pager.init File.empty c uninit) =
      (insertRows fuel ops).run Pager.handler s₀ := by
    intro ops
    rw [run_bind, hinit]
  unfold Reaches
  simp only [hrun]
  exact insertRows_error_iff

variable {c fuel : ℕ} {s s' : Pager} {m : Mem} {lvl : ℕ → ℕ} {chain : List ℕ} {key q : ℕ}

namespace Grown

/-- The separators lead from every node to a leaf. -/
theorem leadsTo (h : Grown c s m lvl chain) (key : ℕ) : ∀ n p, p < s.numPages → lvl p ≤ n →
    LeadsTo s.page key p (descend m.page key n p) := by
  intro n
  induction n with
  | zero =>
    intro p hp hl
    exact .leaf ((h.isLeaf_iff hp).2 (Nat.le_zero.1 hl))
  | succ n ih =>
    intro p hp hl
    have hpm : p < m.numPages := h.numPages ▸ hp
    unfold descend
    by_cases hz : lvl p = 0
    · have hleaf := (h.isLeaf_iff hp).2 hz
      rw [← h.page hp, if_pos hleaf]
      exact .leaf hleaf
    · have hleaf : (s.page p).isLeaf = false :=
        not_isLeaf_of_isInternal ((h.isInternal_iff hp).2 hz)
      have hchild := h.tree.shape.childAt_mem hpm hz ((m.page p).findChild key)
      have hlevel := h.tree.shape.kid_level hpm hchild
      have hlt := (h.tree.shape.kid_lt hpm hchild).1
      rw [← h.page hp, if_neg (by rw [hleaf]; exact Bool.false_ne_true)]
      rw [← h.page hp, ← h.numPages] at hlt
      rw [← h.page hp] at hlevel
      exact .node hleaf (ih _ hlt (by omega))

/-- **The leaf a key belongs to.** -/
theorem leadsTo_iff (h : Grown c s m lvl chain) :
    LeadsTo s.page key rootPageNum q ↔ q = descend m.page key (lvl 0) 0 := by
  have hroot : LeadsTo s.page key 0 (descend m.page key (lvl 0) 0) :=
    h.leadsTo key _ 0 (by rw [h.numPages]; exact h.tree.shape.used_pos) le_rfl
  constructor
  · exact fun hq => hq.unique hroot
  · rintro rfl
    exact hroot

/-- The leaf a lookup ends in is a page in use. -/
theorem leaf_lt (h : Grown c s m lvl chain) (key : ℕ) :
    descend m.page key (lvl 0) 0 < s.numPages := by
  rw [h.numPages]
  exact (h.tree.leaf_spec key).1

/-- **A completed insertion leads from a tree to a tree**, with one more row and one more key. -/
theorem after_keys (h : Grown c s m lvl chain) (hc : filePagesNum ≤ c) {op : Insertion}
    (hrun : (insertRow fuel op).run Pager.handler s = (.ok (), s')) :
    ∃ m' lvl' chain', Grown c s' m' lvl' chain' ∧
      Tree.InsertsRow m (descend m.page op.key.toNat (lvl 0) 0) op.cell m' ∧
      Tree.InsertsKey m chain (descend m.page op.key.toNat (lvl 0) 0) op.key.toNat m' chain' := by
  obtain ⟨r, s₁, m', hrun₁, hflat, hsim⟩ :=
    h.sim.run_large (K := fun _ => True) hc (f := insertRow fuel op) fun _ =>
    match_insertRow fuel op
  rw [Pager.strict_true, hrun] at hrun₁
  obtain ⟨rfl, rfl⟩ := Prod.mk.inj hrun₁
  have hwp : wp (Mem.handler (fun _ => True) OfFile) (insertRow fuel op) (fun _ m' => ∃ lvl' chain',
      Tree OfFile m' lvl' chain' ∧
      Tree.InsertsRow m (descend m.page op.key.toNat (lvl 0) 0) op.cell m' ∧
      Tree.InsertsKey m chain (descend m.page op.key.toNat (lvl 0) 0) op.key.toNat m' chain') _ m :=
    h.tree.wp_insertRow (fun _ _ => trivial) (fun _ => id) fun m' lvl' chain' ht hrow hkey =>
      ⟨lvl', chain', ht, hrow, hkey⟩
  obtain ⟨lvl', chain', ht, hrow, hkey⟩ := wp_ok hwp hflat
  exact ⟨m', lvl', chain', ⟨hsim, ht⟩, hrow, hkey⟩

/-- A completed insertion leads to a table again, and the row went to the leaf of its lookup. -/
theorem after (h : Grown c s m lvl chain) (hc : filePagesNum ≤ c) {op : Insertion}
    (hrun : (insertRow fuel op).run Pager.handler s = (.ok (), s')) :
    ∃ m' lvl' chain', Grown c s' m' lvl' chain' ∧
      Tree.InsertsRow m (descend m.page op.key.toNat (lvl 0) 0) op.cell m' := by
  obtain ⟨m', lvl', chain', hg, hrow, -⟩ := h.after_keys hc hrun
  exact ⟨m', lvl', chain', hg, hrow⟩

/-- **The cursor of `table_find`.** The tree is the same after it. -/
theorem find (h : Grown c s m lvl chain) (hc : filePagesNum ≤ c) {cursor : Cursor}
    (hrun : (tableFind fuel key).run Pager.handler s = (.ok cursor, s')) :
    cursor = makeCursor (descend m.page key (lvl 0) 0)
      ((m.page (descend m.page key (lvl 0) 0)).findCell key) ∧
      Grown c s' m lvl chain := by
  obtain ⟨r, s₁, m', hrun₁, hflat, hsim⟩ := h.sim.run_large (K := fun _ => True) hc fun _ =>
    match_tableFind fuel key
  rw [Pager.strict_true, hrun] at hrun₁
  obtain ⟨rfl, rfl⟩ := Prod.mk.inj hrun₁
  have hwp : wp (Mem.handler (fun _ => True) OfFile) (tableFind fuel key)
      (fun cursor m' => cursor = makeCursor (descend m.page key (lvl 0) 0)
        ((m.page (descend m.page key (lvl 0) 0)).findCell key) ∧ m' = m) (fun _ _ => True) m :=
    h.tree.shape.wp_tableFind fuel key (fun _ _ => trivial)
      (fun m' _ hv => ⟨rfl, hv.eq_of_tight h.tree.tight⟩) fun _ _ => trivial
  obtain ⟨hcursor, rfl⟩ := wp_ok hwp hflat
  exact ⟨hcursor, hsim, h.tree⟩

end Grown

/-! ## Where the row is written -/

end ToySQL
