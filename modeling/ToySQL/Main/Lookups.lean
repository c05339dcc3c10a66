import ToySQL.Main.Recursion
import ToySQL.Proof.InOrder
import ToySQL.Proof.Prefixes
import ToySQL.Spec.Queries

/-!
# Lookups

* `findsInserted`: every key is found as long as a full leaf is only split where it is the root
  or the right child of a root with room.
* `not_findsInserted`: the split of a left child loses keys.
-/

namespace ToySQL

open Program Page

/-- A pager that refines a table in order. -/
def Ordered (c : ℕ) (ops : List Insertion) (s : Pager) : Prop :=
  ∃ m, Sim c OfFile ∅ s m ∧ InOrder m (ops.map fun op => op.key.toNat).reverse

variable {c fuel : ℕ} {uninit : Addr → Page} {ops : List Insertion} {op : Insertion} {s : Pager}
    {m : Mem}

theorem RootLeaf.newTable : RootLeaf Mem.newTable [] := by
  obtain ⟨hleaf, hroot, hcells, -⟩ := Page.newTable_header
  have hpage : Mem.newTable.page 0 = Page.newTable := Mem.page_set_self _ _ _
  have hkeys : Page.newTable.keys = [] := by
    rw [keys_eq, hcells]
    rfl
  constructor
  case tight => exact (tree_newTable (T := OfFile) (by decide)).tight
  case numPages => rfl
  all_goals rw [hpage]
  case leaf => exact hleaf
  case isRoot => exact hroot
  case numCells =>
    rw [hcells]
    decide
  case sorted =>
    rw [hkeys]
    exact .nil
  case mem =>
    intro k
    rw [hkeys]

/-- The table starts as an empty leaf. -/
theorem ordered_nil (hc : filePagesNum ≤ c) (uninit : Addr → Page) (fuel : ℕ) :
    ∃ s, Reaches c uninit fuel [] s ∧ Ordered c [] s := by
  have hwp : wp (Mem.handler (fun _ => True) OfFile) (do initializeTable; insertRows fuel [])
      (fun _ m => InOrder m []) (fun _ _ => False) Mem.empty := by
    rw [wp_bind]
    exact wp_initializeTable (show 0 < filePagesNum by decide) (.leaf .newTable)
  obtain ⟨_, s, m, hrun, hm, hsim⟩ := (sim_init c uninit OfFile).run_total hc
    (fun _ => match_bind match_initializeTable fun _ _ _ => match_insertRows fuel []) hwp
  exact ⟨s, hrun, m, hsim, hm⟩

/-- **One insertion** into a table in order. -/
theorem Ordered.insertRow (h : Ordered c ops s) (hc : filePagesNum ≤ c)
    (hx : op.key ∉ ops.map (·.key))
    (hs : s.SplitsInOrder op.key.toNat) :
    ∃ s', (insertRow fuel op).run Pager.handler s = (.ok (), s') ∧ Ordered c (ops ++ [op]) s' := by
  obtain ⟨m, hsim, hm⟩ := h
  have hmem : op.key.toNat ∉ (ops.map fun op => op.key.toNat).reverse := by
    rw [List.mem_reverse, List.mem_map]
    rintro ⟨op', hop', heq⟩
    exact hx (List.mem_map.2 ⟨op', hop', UInt32.toNat_inj.1 heq⟩)
  have hwp : wp (Mem.handler (fun _ => True) OfFile) (ToySQL.insertRow fuel op)
      (fun _ m' => InOrder m' (op.key.toNat :: (ops.map fun op => op.key.toNat).reverse))
      (fun _ _ => False) m := by
    -- a table of one leaf splits its root; one of two levels meets the condition
    cases hm with
    | leaf hm =>
      exact hm.wp_insertRow hmem trivial (fun q hq => hq.trans (by decide)) fun _ h => h
    | node hm =>
      have hpages := hm.numPages_lt
      have hpage := fun q (hq : q < m.numPages) => hsim.page q (hq.trans hpages)
      have hle := Page.findChild_le (m.page 0) op.key.toNat
      have hplt := hm.node.childLt _ hle
      refine hm.wp_insertRow hmem (fun _ _ => trivial) (fun q hq => hq.trans_lt hpages) rfl ?_
        fun _ h => h
      have hroot : s.page rootPageNum = m.page 0 := hpage 0 hm.node.lt
      have hleads :
          LeadsTo s.page op.key.toNat rootPageNum
            ((m.page 0).childAt ((m.page 0).findChild op.key.toNat)) := by
        apply LeadsTo.node
        · rw [hroot]
          exact not_isLeaf_of_isInternal hm.node.internal
        · rw [hroot]
          apply LeadsTo.leaf
          rw [hpage _ hplt]
          exact hm.node.leaf _ hle
      have hq := hs _ hleads
      rw [hroot, hpage _ hplt] at hq
      rcases hq with hroom | h0 | hright
      · exact Or.inl hroom
      · exact absurd h0 (hm.node.childAt_ne hle)
      · exact Or.inr hright
  obtain ⟨_, s', m', hrun, hm', hsim'⟩ := hsim.run_total hc (fun _ => match_insertRow fuel op) hwp
  refine ⟨s', hrun, m', hsim', ?_⟩
  rwa [List.map_append, List.map_singleton, List.reverse_append, List.reverse_singleton,
    List.singleton_append]

/-- Every key of a table in order is found. -/
theorem Ordered.finds (h : Ordered c ops s) (hc : filePagesNum ≤ c) (hop : op ∈ ops) (fuel : ℕ) :
    s.Finds fuel op.key.toNat := by
  obtain ⟨m, hsim, hm⟩ := h
  have hpages := hm.numPages_lt
  have hmem : op.key.toNat ∈ (ops.map fun op => op.key.toNat).reverse :=
    List.mem_reverse.2 (List.mem_map_of_mem hop)
  have hwp : wp (Mem.handler (fun _ => True) OfFile) (tableFind fuel op.key.toNat)
      (fun cursor m' => m' = m ∧ cursor.pageNum < filePagesNum ∧
        (m.page cursor.pageNum).isLeaf = true ∧
        cursor.cellNum < (m.page cursor.pageNum).numCells ∧
        (m.page cursor.pageNum).key cursor.cellNum = op.key.toNat)
      (fun _ _ => False) m :=
    hm.wp_tableFind hmem (fun _ _ => trivial) (fun q hq => hq.trans hpages)
      fun p i hp hleaf hi hkey =>
      ⟨rfl, hp.trans hpages, hleaf, hi, hkey⟩
  obtain ⟨cursor, s', _, hrun, ⟨rfl, hp, hcell⟩, hsim'⟩ :=
    hsim.run_total hc (fun _ => match_tableFind fuel _) hwp
  rw [← hsim'.page _ hp] at hcell
  exact ⟨cursor, s', hrun, hcell⟩

/-- **Lookups.** As long as every full leaf a key goes to is the root, or the right child of a root
that takes another cell, the insertions of different keys complete, and after each of them every
key is found. -/
theorem findsInserted (hc : filePagesNum ≤ c) (hkeys : (ops.map (·.key)).Nodup)
    (hsteps : ∀ pre op post s, ops = pre ++ op :: post → Reaches c uninit fuel pre s →
      s.SplitsInOrder op.key.toNat) :
    ∀ pre post, ops = pre ++ post → ∃ s, Reaches c uninit fuel pre s ∧ ∀ op ∈ pre, ∀ fuel',
      s.Finds fuel' op.key.toNat := by
  have hrun : ∀ pre post, ops = pre ++ post → ∃ s, Reaches c uninit fuel pre s ∧
      Ordered c pre s := by
    refine reaches_prefixes (ordered_nil hc uninit fuel) fun pre op post s hops hs h => ?_
    refine h.insertRow hc (fun hmem => ?_) (hsteps pre op post s hops hs)
    rw [hops, List.map_append, List.map_cons] at hkeys
    exact (List.nodup_append.1 hkeys).2.2 _ hmem _ List.mem_cons_self rfl
  intro pre post hops
  obtain ⟨s, hs, hordered⟩ := hrun pre post hops
  exact ⟨s, hs, fun op hop fuel' => hordered.finds hc hop fuel'⟩

/-- The condition on the next step, by the descent to a leaf. -/
def splitsInOrder (s : Pager) (op : Insertion) : Bool :=
  let q := descend s.page op.key.toNat 1 rootPageNum
  (s.page q).isLeaf && (decide ((s.page q).numCells < leafNodeMaxCells) || q == rootPageNum ||
    q == (s.page rootPageNum).rightChild && decide ((s.page rootPageNum).numKeys <
      internalNodeMaxCells) &&
      (s.page rootPageNum).child (s.page rootPageNum).numKeys != invalidPageNum)

/-- The condition as it is computed is the one that is meant. -/
theorem splitsInOrder_spec (h : splitsInOrder s op = true) : s.SplitsInOrder op.key.toNat := by
  unfold splitsInOrder at h
  simp only [Bool.and_eq_true, Bool.or_eq_true, decide_eq_true_eq, beq_iff_eq, bne_iff_ne] at h
  obtain ⟨hleaf, hq⟩ := h
  intro q hleads
  rw [hleads.eq_descend 1 hleaf]
  rcases hq with (hroom | hroot) | ⟨⟨hright, hkeys⟩, hslot⟩
  · exact Or.inl hroom
  · exact Or.inr (Or.inl hroot)
  · exact Or.inr (Or.inr ⟨hright, hkeys, hslot⟩)

/-- 24 insertions in ascending order: the right child of the root is split. -/
theorem findsInserted_ascending :
    ∃ s, Reaches filePagesNum (fun _ => Bytes.zero pageSize) 0 ((List.range 24).map plain) s ∧
    ∀ op ∈ (List.range 24).map plain, ∀ fuel', s.Finds fuel' op.key.toNat := by
  have hsteps : stepsOk 0 splitsInOrder ((List.range 24).map plain) (runTable filePagesNum 0 []).2 =
      true := by decide +kernel
  exact findsInserted le_rfl (by decide)
    (fun pre op post s hops hs => splitsInOrder_spec
      (stepsOk_spec hsteps (by decide +kernel) pre op post s hops hs)) _ []
    (List.append_nil _).symm

/-- The keys 0, 10, .. 150, then the keys 1 to 8, all below the first separator. -/
def leftRun : List Insertion :=
  ((List.range 16).map fun i => plain (10 * i)) ++ [1, 2, 3, 4, 5, 6, 7, 8].map plain

/-- A lookup that comes back does the same with a larger bound. -/
theorem finds_iff_zero {key fuel : ℕ} (h : ((tableFind 0 key).run Pager.handler s).1.isOk = true) :
    s.Finds fuel key ↔ s.Finds 0 key := by
  have hne : ((tableFind 0 key).run Pager.handler s).1 ≠ .error .noReturn := by
    intro he
    rw [he] at h
    cases h
  unfold Pager.Finds
  rw [(deepens_tableFind (Nat.zero_le fuel) key).run hne]

/-- **The split of a left child** loses keys: its upper half comes before the lower one, under
the same separator. -/
theorem not_findsInserted : (leftRun.map (·.key)).Nodup ∧
    ∃ s, Reaches filePagesNum (fun _ => Bytes.zero pageSize) 0 leftRun s ∧
      s.numPages < filePagesNum ∧
      ∃ op ∈ leftRun, ∀ fuel, ¬ s.Finds fuel op.key.toNat := by
  refine ⟨by decide +kernel, (runTable filePagesNum 0 leftRun).2,
    reaches_runTable (by decide +kernel),
    by decide +kernel, plain 0, by decide +kernel, fun fuel => ?_⟩
  rw [finds_iff_zero (by decide +kernel)]
  decide +kernel

end ToySQL
