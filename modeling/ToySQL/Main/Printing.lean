import ToySQL.Main.Height
import ToySQL.Proof.Scan
import ToySQL.Spec.Printing

/-!
# What `print_tree` shows

* `Reaches.printTree`: every leaf is printed once, with its size and its keys, at an indentation
  that is its depth, and nothing else is printed as a leaf or as one of its keys. Printing
  changes no page.
-/

namespace ToySQL

open Program Page Levelled

/-! ## The outline of a tree -/

def cellLines (level : ℕ) (pg : Page) : List Line := (List.range pg.numCells).map fun i =>
    ⟨level, .cell (pg.key i)⟩

/-- What is printed for a page whose leaves are `height` levels down. -/
def outline (page : ℕ → Page) : ℕ → ℕ → ℕ → List Line
  | 0, p, level => ⟨level, .leaf (page p).numCells⟩ :: cellLines (level + 1) (page p)
  | height + 1, p, level =>
    ⟨level, .internal (page p).numKeys⟩ :: (((List.range (page p).numKeys).flatMap fun i =>
      outline page height ((page p).child i) (level + 1) ++
        [⟨level + 1, .separator ((page p).sep i)⟩]) ++
        outline page height (page p).rightChild (level + 1))

/-- The leaves among the lines: their indentation and their size. -/
def Line.leaf? (line : Line) : Option (ℕ × ℕ) :=
  match line.printed with
  | .leaf size => some (line.level, size)
  | _ => none

/-- The keys of leaves among the lines: their indentation and the key. -/
def Line.cell? (line : Line) : Option (ℕ × ℕ) :=
  match line.printed with
  | .cell key => some (line.level, key)
  | _ => none

variable {c fuel level : ℕ} {uninit : Addr → Page} {ops : List Insertion} {s : Pager} {m : Mem}
    {lvl : ℕ → ℕ}
  {chain : List ℕ} {p : ℕ} {w : Links} {a : Addr}

/-! ## The code does not look inside its pointers -/

/-- The loop over the cells, over entries and over page numbers. -/
theorem match_printCells (level : ℕ) : ∀ count i {w : Links}, (a, p) ∈ w →
    Match Eq' w (printCells a level count i) (printCells p level count i) := by
  intro count
  induction count with
  | zero => exact fun _ _ _ => match_ret _
  | succ count ih =>
    intro i w h
    apply match_bind (match_load h _)
    intro key w1 h1
    exact match_bind (ih (i + 1) (h1 h)) fun _ _ _ => match_ret _

theorem match_printChildren {next : ℕ → ℕ → Prog Addr (List Line)}
    {next' : ℕ → ℕ → Prog ℕ (List Line)}
    (hnext : ∀ q l w, Match Eq' w (next q l) (next' q l)) (level : ℕ) :
    ∀ count i {w : Links}, (a, p) ∈ w →
      Match Eq' w (printChildren next a level count i) (printChildren next' p level count i) := by
  intro count
  induction count with
  | zero => exact fun _ _ _ => match_ret _
  | succ count ih =>
    intro i w h
    apply match_bind (match_internalNodeChild h _)
    intro l w1 h1
    apply match_bind (match_load (h1 h) _)
    intro child w2 h2
    apply match_bind (hnext child level w2)
    intro below w3 h3
    have h13 := le_trans h1 (le_trans h2 h3)
    apply match_bind (match_load (h13 h) _)
    intro key w4 h4
    exact match_bind (ih (i + 1) (h4 (h13 h))) fun _ _ _ => match_ret _

theorem match_printTreeStep {next : ℕ → ℕ → Prog Addr (List Line)}
    {next' : ℕ → ℕ → Prog ℕ (List Line)}
    (hnext : ∀ q l w, Match Eq' w (next q l) (next' q l)) (n level : ℕ) :
    Match Eq' w (printTreeStep next n level) (printTreeStep next' n level) := by
  apply match_bind_ptr (match_getPage n)
  intro a p w1 _ h
  apply match_bind (match_getNodeType h)
  intro t w2 h2
  cases t with
  | leaf =>
    apply match_bind (match_load (h2 h) _)
    intro numKeys w3 h3
    exact match_bind (match_printCells _ _ _ (h3 (h2 h))) fun _ _ _ => match_ret _
  | internal =>
    apply match_bind (match_load (h2 h) _)
    intro numKeys w3 h3
    apply match_ite
    · apply match_bind (match_printChildren hnext _ _ _ (h3 (h2 h)))
      intro cells w4 h4
      apply match_bind (match_load (h4 (h3 (h2 h))) _)
      intro child w5 _
      exact match_bind (hnext child _ w5) fun _ _ _ => match_ret _
    · exact match_ret _
  | other v => exact match_fault _

/-- `print_tree` over entries and over page numbers. -/
theorem match_printTree :
    ∀ fuel n level {w : Links}, Match Eq' w (printTree fuel n level) (printTree fuel n level) := by
  intro fuel
  induction fuel with
  | zero => exact fun n level _ => match_printTreeStep (fun _ _ _ => match_fault _) n level
  | succ fuel ih => exact fun n level _ => match_printTreeStep (fun q l _ => ih q l) n level

/-! ## Printing, in flat memory -/

namespace Mem

variable {K T : ℕ → Prop} [DecidablePred K] [DecidablePred T] {F : Fault → Mem → Prop}

/-- The loop over the cells prints their keys. By induction on their number. -/
theorem wp_printCells {Q : List Line → Mem → Prop} (level : ℕ) : ∀ count i, i + count ≤ 15 →
    Q ((List.range' i count).map fun i => ⟨level, .cell ((m.page p).key i)⟩) m →
      wp (handler K T) (printCells p level count i) Q F m := by
  intro count
  induction count generalizing Q with
  | zero => exact fun i _ hQ => hQ
  | succ count ih =>
    intro i hi hQ
    unfold printCells
    rw [wp_bind, wp_load (access_leafKey (by omega)), wp_bind]
    apply ih (i + 1) (by omega)
    exact hQ

/-- The loop over the children prints each child and the separator after it. -/
theorem wp_printChildren {next : ℕ → ℕ → Prog ℕ (List Line)} {B : ℕ → List Line}
    {Q : List Line → Mem → Prop}
    (hnode : (m.page p).Node) (hK : ∀ i < 3, K i)
    (hnext : ∀ i < (m.page p).numKeys, ∀ Q : List Line → Mem → Prop, Q (B ((m.page p).child i)) m →
      wp (handler K T) (next ((m.page p).child i) level) Q F m) :
    ∀ count i, i + count = (m.page p).numKeys →
      Q ((List.range' i count).flatMap fun i =>
        B ((m.page p).child i) ++ [⟨level, .separator ((m.page p).sep i)⟩]) m →
      wp (handler K T) (printChildren next p level count i) Q F m := by
  intro count
  -- the loop runs upwards from child `i`
  induction count generalizing Q with
  | zero => exact fun i _ hQ => hQ
  | succ count ih =>
    intro i hi hQ
    have hlt : i < (m.page p).numKeys := by omega
    have hle := hnode.le
    have hsep : (m.page p).load (.internalKey i) = (m.page p).sep i := rfl
    unfold printChildren
    rw [wp_bind, wp_internalNodeChild_cell hlt (by omega) (hnode.cell i hlt), wp_bind,
      wp_load (access_internalCell (by omega)),
      load_internalCell, wp_bind]
    apply hnext i hlt
    rw [wp_bind, wp_load (access_internalKey (by omega) (hK i (by omega))), hsep, wp_bind]
    apply ih (i + 1) (by omega)
    rw [List.range'_succ, List.flatMap_cons, List.append_assoc] at hQ
    exact hQ

end Mem

namespace Tree

variable {K T : ℕ → Prop} [DecidablePred K] [DecidablePred T] {F : Fault → Mem → Prop}

/-- **The outline** is what is printed. -/
theorem wp_printTree (h : Tree T m lvl chain) (hK : ∀ i < 3, K i) :
    ∀ height fuel p level (Q : List Line → Mem → Prop),
    p < m.numPages → lvl p = height → height ≤ fuel → level + height < 2 ^ 32 - 1 →
      Q (outline m.page height p level) m →
      wp (Mem.handler K T) (printTree fuel p level) Q F m := by
  have hrange : ∀ n, List.range' 0 n = List.range n := fun n => List.range_eq_range'.symm
  intro height
  induction height with
  | zero =>
    intro fuel p level Q hp hl _ hlevel hQ
    obtain ⟨hleaf, hcells, -⟩ := h.leaf_facts hp hl
    have htype : (m.page p).type = .leaf := of_decide_eq_true hleaf
    have hu : u32 (level + 1) = level + 1 := Nat.mod_eq_of_lt (by omega)
    have hload : (m.page p).load .numCells = (m.page p).numCells := rfl
    -- the recursive call is not used
    have hstep : ∀ next :
        ℕ → ℕ → Prog ℕ (List Line), wp (Mem.handler K T) (printTreeStep next p level) Q F m := by
      intro next
      unfold printTreeStep
      simp only [wp_bind, Mem.wp_getPage (h.shape.allowed p hp), h.tight.touch_of_lt hp,
        Mem.wp_getNodeType, htype]
      rw [Mem.wp_load (Mem.access_header .numCells), hload, hu]
      apply Mem.wp_printCells _ _ _ (by omega)
      rw [hrange]
      exact hQ
    cases fuel with
    | zero => exact hstep _
    | succ fuel => exact hstep _
  | succ height ih =>
    intro fuel p level Q hp hl hfuel hlevel hQ
    obtain ⟨fuel, rfl⟩ := Nat.exists_eq_succ_of_ne_zero (Nat.ne_zero_of_lt hfuel)
    have hf := h.shape.fits p hp
    have hnode := hf.node (by omega) (Set.notMem_empty p)
    have htype : (m.page p).type = .internal := of_decide_eq_true hnode.internal
    have hu : u32 (level + 1) = level + 1 := Nat.mod_eq_of_lt (by omega)
    have hload : (m.page p).load .numKeys = (m.page p).numKeys := rfl
    -- the children are one level further down
    have hchild : ∀ q ∈ (m.page p).kids, ∀ Q :
        List Line → Mem → Prop, Q (outline m.page height q (level + 1)) m →
        wp (Mem.handler K T) (printTree fuel q (level + 1)) Q F m := by
      intro q hq Q hQ
      have hbelow := h.shape.levels.below p (Finset.mem_range.2 hp) q hq
      exact ih fuel q (level + 1) Q (h.shape.kid_lt hp hq).1 (by omega) (by omega) (by omega) hQ
    unfold printTree printTreeStep
    simp only [wp_bind, Mem.wp_getPage (h.shape.allowed p hp), h.tight.touch_of_lt hp,
      Mem.wp_getNodeType, htype]
    rw [Mem.wp_load (Mem.access_header .numKeys), hload,
      if_pos (show (m.page p).numKeys > 0 from hnode.pos), wp_bind, hu]
    apply Mem.wp_printChildren (B := fun q => outline m.page height q (level + 1)) hnode hK
      (fun i hi => hchild _ (hnode.child_mem hi)) _ _ (Nat.zero_add _)
    rw [wp_bind, Mem.wp_load (Mem.access_header .rightChild), load_rightChild, wp_bind]
    apply hchild _ hnode.right_mem
    rw [hrange]
    exact hQ

end Tree

/-! ## What the outline shows -/

/-- Lines of which internal nodes have none: they are collected from the leaves. -/
theorem filterMap_outline {β : Type} (f : Line → Option β)
    (hinternal : ∀ level n, f ⟨level, .internal n⟩ = none)
    (hseparator : ∀ level n, f ⟨level, .separator n⟩ = none)
    (h : ∀ p < m.numPages, lvl p ≠ 0 → (m.page p).Node)
    (hlevels : Levelled (Finset.range m.numPages) 0 (fun p => (m.page p).kids) lvl 0) :
    ∀ height p level,
      p < m.numPages → lvl p = height →
      (((outline m.page height p level).filterMap f : List β) : Multiset β) =
        (leavesBelow (fun p => (m.page p).kids) height p).bind fun q =>
          ((outline m.page 0 q (level + height)).filterMap f : List β) := by
  intro height
  -- level by level: the leaves below a node are those below its children
  induction height with
  | zero =>
    intro p level _ _
    exact (Multiset.singleton_bind _ _).symm
  | succ height ih =>
    intro p level hp hl
    have hnode := h p hp (by omega)
    have hkid : ∀ q ∈ (m.page p).kids,
        (((outline m.page height q (level + 1)).filterMap f : List β) : Multiset β) =
        (leavesBelow (fun p => (m.page p).kids) height q).bind fun q =>
          ((outline m.page 0 q (level + (height + 1))).filterMap f : List β) := by
      intro q hq
      have hbelow := hlevels.below p (Finset.mem_range.2 hp) q hq
      have hq' := hlevels.mem_of_kid (Finset.mem_range.2 hp) hq
      rw [ih q (level + 1) (Finset.mem_range.1 hq'.1) (by omega)]
      have hlevel : level + 1 + height = level + (height + 1) := by omega
      rw [hlevel]
    have hcells :
        (((List.range (m.page p).numKeys).flatMap fun i => outline m.page height
          ((m.page p).child i) (level + 1) ++
        [⟨level + 1, .separator ((m.page p).sep i)⟩]).filterMap f) =
          ((List.range (m.page p).numKeys).map (m.page p).child).flatMap fun q =>
            (outline m.page height q (level + 1)).filterMap f := by
      rw [List.filterMap_flatMap, List.flatMap_map]
      congr 1
      funext i
      rw [List.filterMap_append, List.filterMap_cons_none (hseparator _ _), List.filterMap_nil,
        List.append_nil]
    unfold outline leavesBelow
    rw [List.filterMap_cons_none (hinternal _ _), List.filterMap_append, hcells,
      Multiset.bind_assoc]
    have hlist : ((List.range (m.page p).numKeys).map (m.page p).child).flatMap
        (fun q => (outline m.page height q (level + 1)).filterMap f) ++
        (outline m.page height (m.page p).rightChild (level + 1)).filterMap f =
          (m.page p).children.flatMap fun q =>
            (outline m.page height q (level + 1)).filterMap f := by
      unfold children
      rw [List.flatMap_append, List.flatMap_singleton]
    rw [hlist, ← Multiset.coe_bind, hnode.kids]
    apply Multiset.bind_congr
    intro q hq
    exact hkid q (by rwa [hnode.kids])

/-- What is printed for the whole tree, line by line from the leaves. -/
theorem Tree.filterMap_outline {T : ℕ → Prop} {β : Type} (h : Tree T m lvl chain)
    (f : Line → Option β)
    (hinternal : ∀ level n, f ⟨level, .internal n⟩ = none)
    (hseparator : ∀ level n, f ⟨level, .separator n⟩ = none) :
    (((outline m.page (lvl 0) 0 0).filterMap f : List β) : Multiset β) =
      ↑(chain.flatMap fun q => (outline m.page 0 q (lvl 0)).filterMap f) := by
  have hperm : (layer (Finset.range m.numPages) lvl 0).val = (chain : Multiset ℕ) := by
    apply (Multiset.Nodup.ext (Finset.nodup _) (Multiset.coe_nodup.2 h.leaves.nodup)).2
    intro p
    rw [Finset.mem_val, mem_layer, Finset.mem_range, Multiset.mem_coe, h.leaves.mem]
  rw [ToySQL.filterMap_outline f hinternal hseparator
    (fun p hp hl => (h.shape.fits p hp).node hl (Set.notMem_empty p))
    h.shape.levels (lvl 0) 0 0 h.shape.used_pos rfl, h.shape.levels.leavesBelow_root, hperm,
    Multiset.coe_bind, Nat.zero_add]

theorem filterMap_leaf? (level p : ℕ) :
    (outline m.page 0 p level).filterMap Line.leaf? = [(level, (m.page p).numCells)] := by
  unfold outline
  have hcells : (cellLines (level + 1) (m.page p)).filterMap Line.leaf? = [] := by
    apply List.filterMap_eq_nil_iff.2
    intro line hline
    obtain ⟨i, -, rfl⟩ := List.mem_map.1 hline
    rfl
  rw [List.filterMap_cons_some (rfl : Line.leaf? ⟨level, .leaf (m.page p).numCells⟩ = some _),
    hcells]

theorem filterMap_cell? (level p : ℕ) :
    (outline m.page 0 p level).filterMap Line.cell? = (m.page p).keys.map fun key =>
      (level + 1, key) := by
  unfold outline cellLines
  rw [List.filterMap_cons_none (rfl : Line.cell? ⟨level, .leaf (m.page p).numCells⟩ = none),
    List.filterMap_map, keys_eq, List.map_map]
  exact congrFun List.filterMap_eq_map' _

/-- What is printed: the leaves with their sizes, and their keys, all at the depth of the leaves. -/
structure Pager.Prints (s : Pager) (keys : List ℕ) (height : ℕ) (lines : List Line) : Prop where
  leaves : (lines.filterMap Line.leaf?).Perm (s.leaves.map fun p => (height, (s.page p).numCells))
  keys : (lines.filterMap Line.cell?).Perm (keys.map fun key => (height + 1, key))

/-- **Printing a table** shows every leaf and every stored key once, and changes nothing. -/
theorem Reaches.printTree (hc : filePagesNum ≤ c) (h : Reaches c uninit fuel ops s) :
    ∃ height lines, HasHeight s.page rootPageNum height ∧
      s.Prints (ops.map fun op => op.key.toNat) height lines ∧
      ∀ depth ≥ height, ∃ s', (printTree depth rootPageNum 0).run Pager.handler s =
        (.ok lines, s') ∧
        s'.numPages = s.numPages ∧ ∀ p < filePagesNum, s'.page p = s.page p := by
  -- the lines are those of the tree the pages form
  obtain ⟨m, lvl, chain, hg, hkeys⟩ := h.grown hc
  have h0 : 0 < s.numPages := by
    rw [hg.numPages]
    exact hg.tree.shape.used_pos
  have hle := hg.tree.height_le
  refine ⟨lvl 0, outline m.page (lvl 0) 0 0, hg.hasHeight (lvl 0) 0 h0 rfl, ⟨?_, ?_⟩,
    fun depth hdepth => ?_⟩
  · rw [← Multiset.coe_eq_coe, hg.tree.filterMap_outline Line.leaf? (fun _ _ => rfl) fun _ _ => rfl]
    simp only [filterMap_leaf?]
    rw [← List.map_eq_flatMap, Multiset.coe_eq_coe, hg.leaves]
    refine (hg.tree.leaves_perm.symm.map _).trans
      (List.Perm.of_eq (List.map_congr_left fun p hp => ?_))
    rw [hg.page_of_mem (hg.tree.leaves_perm.mem_iff.1 hp)]
  · rw [← Multiset.coe_eq_coe, hg.tree.filterMap_outline Line.cell? (fun _ _ => rfl) fun _ _ => rfl]
    simp only [filterMap_cell?]
    rw [hg.tree.rows_keys, Multiset.coe_eq_coe] at hkeys
    rw [Multiset.coe_eq_coe, ← List.map_flatMap]
    exact hkeys.map _
  · have hwp : wp (Mem.handler (fun _ => True) OfFile) (ToySQL.printTree depth rootPageNum 0)
        (fun lines m' => lines = outline m.page (lvl 0) 0 0 ∧ m' = m) (fun _ _ => False) m :=
      hg.tree.wp_printTree (fun _ _ => trivial) (lvl 0) depth 0 0 _ hg.tree.shape.used_pos rfl
        hdepth (by omega) ⟨rfl, rfl⟩
    obtain ⟨_, s', _, hrun, ⟨rfl, rfl⟩, hsim⟩ :=
      hg.sim.run_total hc (fun _ => match_printTree depth rootPageNum 0) hwp
    refine ⟨s', hrun, hsim.numPages.trans hg.sim.numPages.symm, fun p hp => ?_⟩
    rw [hsim.page p hp, hg.sim.page p hp]

/-- Sixteen rows in two leaves below a root. -/
theorem Reaches.printTree_plain : ∃ height lines,
    HasHeight (runTable filePagesNum 0 ((List.range 16).map plain)).2.page rootPageNum height ∧
      (runTable filePagesNum 0 ((List.range 16).map plain)).2.Prints
        (((List.range 16).map plain).map fun op => op.key.toNat) height lines ∧
      ∀ depth ≥ height, ∃ s', (ToySQL.printTree depth rootPageNum 0).run Pager.handler
          (runTable filePagesNum 0 ((List.range 16).map plain)).2 = (.ok lines, s') ∧
        s'.numPages = (runTable filePagesNum 0 ((List.range 16).map plain)).2.numPages ∧
        ∀ p < filePagesNum, s'.page p =
          (runTable filePagesNum 0 ((List.range 16).map plain)).2.page p :=
  Reaches.printTree le_rfl (reaches_runTable (by decide +kernel))

end ToySQL
