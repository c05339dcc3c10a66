import ToySQL.Main.Reading
import ToySQL.Main.Scans

/-!
# The rows a table gives back

* `Reaches.selectsRows`: the loop that reads a table gives the rows of a path of leaves, from the
  first leaf of the tree to the end of the chain, each of them once. A table that was closed gives
  the same rows when it is opened again.
-/

namespace ToySQL

open Program Page

/-- The rows of the leaves on a path, in their order. -/
def rowsAlong (page : ℕ → Page) (path : List ℕ) : List Row :=
  (path.flatMap fun p => (page p).rows).map fun cell => Row.ofMemory cell.2

/-- The leaves a scan goes through: each one is the successor of the one before it, the first one
is the first leaf of the tree, and the last one has no successor. -/
structure Pager.Path (s : Pager) (path : List ℕ) : Prop where
  nodup : path.Nodup
  leaves : ∀ p ∈ path, p ∈ s.leaves
  first : ∃ p, path.head? = some p ∧ FirstLeaf s.page rootPageNum p
  next : path.IsChain s.Successor
  last : ∀ p ∈ path.getLast?, (s.page p).nextLeaf = 0
  all : s.StartsFirst → path.Perm s.leaves

variable {c c' fuel : ℕ} {uninit : Addr → Page} {ops : List Insertion} {s t : Pager} {m : Mem}
    {lvl : ℕ → ℕ}
  {chain path l₁ l₂ : List ℕ} {p i : ℕ} {rows : List Row}

/-- The rows from a cell on begin with that of the cell. -/
theorem Page.rows_drop {pg : Page} (hi : i < pg.numCells) :
    pg.rows.drop i = (pg.key i, pg.value i) :: pg.rows.drop (i + 1) := by
  have hcell : pg.rows[i]? = some (pg.key i, pg.value i) := by simp [rows, hi]
  obtain ⟨hlt, hget⟩ := List.getElem?_eq_some_iff.1 hcell
  rw [List.drop_eq_getElem_cons hlt, hget]

/-! ## The loop, in flat memory -/

namespace Mem

/-- The cursor points to the row of its cell. -/
theorem run_value (hp : OfFile p) (hm : m.Tight) (hlt : p < m.numPages) (e : Bool) :
    (Cursor.value ⟨p, i, e⟩ : Prog ℕ _).run flatHandler m = (.ok (p, .leafValue i), m) := by
  have hwp : wp flatHandler (Cursor.value ⟨p, i, e⟩) (fun r m' => r = (p, .leafValue i) ∧
      m' = m) (fun _ _ => False) m := by
    unfold Cursor.value
    rw [wp_bind, wp_getPage hp, hm.touch_of_lt hlt]
    exact ⟨rfl, rfl⟩
  obtain ⟨_, _, hrun, rfl, rfl⟩ := wp_total hwp
  exact hrun

/-- The cursor goes to the next cell, or to the first cell of the next leaf, or to the end. -/
theorem run_advance (hp : OfFile p) (hm : m.Tight) (hlt : p < m.numPages) (hi : i < 2 ^ 32 - 1)
    (e : Bool) :
    (Cursor.advance ⟨p, i, e⟩).run flatHandler m =
      (.ok (if i + 1 < (m.page p).numCells then ⟨p, i + 1, e⟩
        else if (m.page p).nextLeaf = 0 then
          ⟨p, i + 1, true⟩ else ⟨(m.page p).nextLeaf, 0, e⟩), m) := by
  have hwp : wp flatHandler (Cursor.advance ⟨p, i, e⟩) (fun next m' =>
      next = (if i + 1 < (m.page p).numCells then ⟨p, i + 1, e⟩
        else if (m.page p).nextLeaf = 0 then ⟨p, i + 1, true⟩ else ⟨(m.page p).nextLeaf, 0, e⟩) ∧
          m' = m) (fun _ _ => False) m :=
    (wp_advance hp hm hlt hi).2 ⟨rfl, rfl⟩
  obtain ⟨_, _, hrun, rfl, rfl⟩ := wp_total hwp
  exact hrun

/-- **From a cell on**, the loop reads the other rows of the leaf and those of the leaves behind it.
-/
theorem selectFrom_eq (hm : m.Tight) (hT : ∀ q ∈ chain, OfFile q)
    (hlt : ∀ q ∈ chain, q < m.numPages)
    (hcells : ∀ q ∈ chain, (m.page q).numCells ≤ 15)
    (hfilled : ∀ q ∈ chain, 0 < (m.page q).numCells) :
    ∀ steps p i rest, p :: rest <:+ chain → 0 ∉ rest →
      Linked (fun p => (m.page p).nextLeaf) 0 (p :: rest) →
      i < (m.page p).numCells →
        ((m.page p).rows.drop i ++ rest.flatMap fun q => (m.page q).rows).length < steps →
      selectFrom flatHandler Mem.rowAt steps ⟨p, i, false⟩ m =
        (.ok (((m.page p).rows.drop i ++ rest.flatMap fun q => (m.page q).rows).map fun cell =>
          Row.ofMemory cell.2), m) := by
  intro steps
  induction steps with
  | zero => exact fun _ _ _ _ _ _ _ hlen => absurd hlen (Nat.not_lt_zero _)
  | succ steps ih =>
    intro p i rest hsuffix hzero hlinked hi hlen
    have hp : p ∈ chain := hsuffix.subset List.mem_cons_self
    have hn := hcells p hp
    have hrows := rows_drop hi
    have hend : (Loc.leafValue i).offset + rowSize ≤ pageSize := by
      rw [Loc.offset_leafValue (by omega)]
      unfold rowSize pageSize
      omega
    rw [hrows, List.cons_append] at hlen ⊢
    have hsteps :
        ((m.page p).rows.drop (i + 1) ++ rest.flatMap fun q => (m.page q).rows).length < steps :=
      Nat.lt_of_succ_lt_succ hlen
    unfold selectFrom
    rw [run_value (hT p hp) hm (hlt p hp)]
    simp only [Bool.false_eq_true, if_false, andThen, if_pos hend]
    rw [run_advance (hT p hp) hm (hlt p hp) (by omega)]
    -- what the rest of the loop gives, whichever way the cursor moves
    have hrest : selectFrom flatHandler Mem.rowAt steps
        (if i + 1 < (m.page p).numCells then ⟨p, i + 1, false⟩
          else if (m.page p).nextLeaf = 0 then
            ⟨p, i + 1, true⟩ else ⟨(m.page p).nextLeaf, 0, false⟩) m =
        (.ok (((m.page p).rows.drop (i + 1) ++ rest.flatMap fun q => (m.page q).rows).map
          fun cell => Row.ofMemory cell.2), m) := by
      by_cases hnext : i + 1 < (m.page p).numCells
      · rw [if_pos hnext]
        exact ih p (i + 1) rest hsuffix hzero hlinked hnext hsteps
      · have hnil : (m.page p).rows.drop (i + 1) = [] := by
          rw [List.drop_eq_nil_iff, length_rows]
          exact not_lt.1 hnext
        rw [if_neg hnext]
        rw [hnil, List.nil_append] at hsteps ⊢
        cases rest with
        | nil =>
          obtain ⟨n, rfl⟩ := Nat.exists_eq_succ_of_ne_zero (Nat.ne_zero_of_lt hsteps)
          rw [if_pos (show (m.page p).nextLeaf = 0 from hlinked)]
          rfl
        | cons q rest =>
          have hq : (m.page p).nextLeaf = q := hlinked.1
          have hq0 : q ≠ 0 := fun h0 => hzero (h0 ▸ List.mem_cons_self)
          have hsuffix' : q :: rest <:+ chain := (List.suffix_cons p _).trans hsuffix
          rw [if_neg (by rwa [hq]), hq]
          exact ih q 0 rest hsuffix' (fun h => hzero (List.mem_cons_of_mem _ h)) hlinked.2
            (hfilled q (hsuffix'.subset List.mem_cons_self)) hsteps
    simp only [hrest]
    rfl

end Mem

namespace Tree

/-- Where a scan starts. -/
theorem run_tableStart (h : Tree OfFile m lvl chain) (hfuel : lvl 0 ≤ fuel + 1)
    (hp : descend m.page 0 (lvl 0) 0 = p)
    (hs : (m.page p).keys.Pairwise (· < ·)) :
    (tableStart fuel).run flatHandler m = (.ok ⟨p, 0, decide ((m.page 0).numCells = 0)⟩, m) := by
  have h0 := h.shape.used_pos
  have hload : (m.page 0).load .numCells = (m.page 0).numCells := rfl
  have hwp : wp flatHandler (tableStart fuel)
      (fun cursor m' => cursor = ⟨p, 0, decide ((m.page 0).numCells = 0)⟩ ∧
        m' = m) (fun _ _ => False) m := by
    unfold tableStart
    rw [wp_bind]
    refine h.shape.wp_tableFind fuel 0 (fun _ _ => trivial) (fun m' _ hv => ?_) fun m' hlt =>
      absurd hlt (not_lt.2 hfuel)
    unfold rootPageNum
    rw [hv.eq_of_tight h.tight, hp, findCell_zero hs, wp_bind,
      Mem.wp_getPage (h.shape.allowed 0 h0), h.tight.touch_of_lt h0, wp_bind,
      Mem.wp_load (Mem.access_header .numCells), hload]
    exact ⟨rfl, rfl⟩
  obtain ⟨_, _, hrun, rfl, rfl⟩ := wp_total hwp
  exact hrun

/-- **The loop** gives the rows of the chain, from the first leaf of the tree on. -/
theorem selectAll_eq (h : Tree OfFile m lvl chain) {steps : ℕ} (hfuel : lvl 0 ≤ fuel + 1)
    (hp : descend m.page 0 (lvl 0) 0 = p)
    (hch : chain = l₁ ++ p :: l₂) (hs : (m.page p).keys.Pairwise (· < ·))
    (hsteps : (rowsAlong m.page (p :: l₂)).length < steps) :
    selectAll flatHandler Mem.rowAt fuel steps m = (.ok (rowsAlong m.page (p :: l₂)), m) := by
  have hmem : ∀ q ∈ chain, q < m.numPages ∧ lvl q = 0 := fun q hq => (h.leaves.mem q).1 hq
  have hsuffix : p :: l₂ <:+ chain := ⟨l₁, hch.symm⟩
  have hpc : p ∈ chain := hsuffix.subset List.mem_cons_self
  unfold selectAll
  rw [h.run_tableStart hfuel hp hs]
  simp only [andThen]
  obtain ⟨n, rfl⟩ : ∃ n, steps = n + 1 := Nat.exists_eq_succ_of_ne_zero (Nat.ne_zero_of_lt hsteps)
  unfold rowsAlong at hsteps ⊢
  rw [List.flatMap_cons] at hsteps ⊢
  by_cases hempty : (m.page 0).numCells = 0
  · -- the table is an empty leaf
    have hl : lvl 0 = 0 := by
      by_contra hne
      have hpos := ((h.shape.fits 0 h.shape.used_pos).node hne (Set.notMem_empty 0)).pos
      exact absurd hempty (Nat.ne_of_gt hpos)
    obtain ⟨-, hp0, hl₂⟩ := alone (hch.symm.trans (h.chain_of_leaf hl))
    have hrows : (m.page 0).rows = [] := by
      apply List.eq_nil_of_length_eq_zero
      rw [length_rows, hempty]
    rw [decide_eq_true hempty, hl₂, hp0, hrows]
    rfl
  · have hfilled : ∀ q ∈ chain, 0 < (m.page q).numCells := by
      intro q hq
      by_cases hc : chain = [0]
      · rw [hc] at hq
        rw [List.mem_singleton.1 hq]
        exact Nat.pos_of_ne_zero hempty
      · exact h.numCells_pos hq hc
    have hlinked := h.leaves.linked.of_suffix hsuffix (List.cons_ne_nil _ _)
    -- page 0 is a leaf only if it is the only one, so no link back ends the scan early
    have hzero : 0 ∉ l₂ := by
      intro h0
      have h0c : 0 ∈ chain := hsuffix.subset (List.mem_cons_of_mem _ h0)
      obtain ⟨-, -, hl₂⟩ := alone (hch.symm.trans (h.chain_of_leaf (hmem 0 h0c).2))
      rw [hl₂] at h0
      exact absurd h0 List.not_mem_nil
    rw [decide_eq_false hempty]
    rw [List.length_map] at hsteps
    exact Mem.selectFrom_eq h.tight (fun q hq => h.shape.allowed q (hmem q hq).1)
      (fun q hq => (hmem q hq).1)
      (fun q hq => (h.leaf_facts (hmem q hq).1 (hmem q hq).2).2.1) hfilled (n + 1) p 0 l₂ hsuffix
      hzero hlinked (hfilled p hpc) hsteps

end Tree

/-! ## Tables -/

/-- The rows depend on the pages alone. -/
theorem Pager.SelectsRows.of_flat (hs : s.Wf)
    (hpages : ∀ p < filePagesNum, s.page p = m.page p) {n : ℕ}
    (hm : ∀ fuel ≥ n, ∀ steps ≥ n, ∃ m', selectAll flatHandler Mem.rowAt fuel steps m =
      (.ok rows, m')) : s.SelectsRows rows := by
  refine ⟨n, fun fuel hfuel steps hsteps => ?_⟩
  obtain ⟨m', hrun⟩ := hm fuel hfuel steps hsteps
  have hseen : Seen (fun _ => True) m.page none s m :=
    ⟨hs, trivial, hpages, rfl, fun _ _ hw => by cases hw⟩
  have hagree :
      Agree Equal (Seen (fun _ => True) m.page)
        (selectAll Pager.handler Pager.rowAt fuel steps s) _ :=
    hseen.selectAll (fun _ _ _ _ _ => trivial) steps
  rw [hrun] at hagree
  revert hagree
  rcases selectAll Pager.handler Pager.rowAt fuel steps s with ⟨_ | rows', s'⟩
  · exact False.elim
  · rintro ⟨w, rfl, -⟩
    exact ⟨s', rfl⟩

/-- A table just built has flushed nothing. -/
theorem Reaches.unflushed (h : Reaches c uninit fuel ops s) : s.Unflushed := by
  have hinit : (Pager.init File.empty c uninit).Unflushed :=
    ⟨⟨Pager.init_wf (Or.inl rfl), fun a ha => absurd ha List.not_mem_nil⟩, Nat.zero_max _⟩
  have hrun := run_invariant Pager.Unflushed.step (do initializeTable; insertRows fuel ops) _ hinit
  rwa [h] at hrun

/-- The path of a scan. -/
theorem Grown.exists_path (h : Grown c s m lvl chain) (hp : descend m.page 0 (lvl 0) 0 = p)
    (hch : chain = l₁ ++ p :: l₂) :
    s.Path (p :: l₂) := by
  have hsub : ∀ q ∈ p :: l₂, q ∈ chain := fun q hq => hch ▸ List.mem_append_right l₁ hq
  have hlinked := h.tree.leaves.linked.of_suffix ⟨l₁, hch.symm⟩ (List.cons_ne_nil _ _)
  have hpage : ∀ q ∈ p :: l₂, s.page q = m.page q := fun q hq => h.page_of_mem (hsub q hq)
  have hzero : 0 ∉ l₂ := by
    intro h0
    have h0c : 0 ∈ chain := hsub 0 (List.mem_cons_of_mem _ h0)
    obtain ⟨-, -, hl₂⟩ :=
      Tree.alone (hch.symm.trans (h.tree.chain_of_leaf ((h.tree.leaves.mem 0).1 h0c).2))
    rw [hl₂] at h0
    exact absurd h0 List.not_mem_nil
  refine ⟨?_, fun q hq => h.mem_chain.2 (hsub q hq), ⟨p, rfl, ?_⟩, ?_, fun q hq => ?_,
    fun hfirst => ?_⟩
  · exact (List.nodup_append.1 (hch ▸ h.tree.leaves.nodup)).2.1
  · rw [firstLeaf_iff, h.leadsTo_iff, hp]
  · refine List.IsChain.imp_of_mem_tail_imp (fun a b ha hb hab => ⟨?_, ?_⟩) hlinked.isChain
    · rw [hpage a ha]
      exact hab
    · rintro rfl
      exact hzero hb
  · have hlast := List.getLast?_eq_some_getLast (List.cons_ne_nil p l₂)
    rw [hlast] at hq
    obtain rfl := Option.some.inj hq
    rw [hpage _ (List.getLast_mem _)]
    exact hlinked.last
  · rw [h.startsFirst_iff, hp, hch] at hfirst
    obtain rfl : l₁ = [] := by
      cases l₁ with
      | nil => rfl
      | cons q l₁ =>
        -- the chain has no page twice
        have hnd := h.tree.leaves.nodup
        rw [hch, List.cons_append, List.nodup_cons] at hnd
        rw [List.cons_append, List.head?_cons, Option.some_inj] at hfirst
        exact absurd (hfirst ▸ List.mem_append_right l₁ List.mem_cons_self) hnd.1
    rw [h.leaves, ← List.nil_append (p :: l₂), ← hch]
    exact h.tree.leaves_perm.symm

/-- **The rows a table gives back** are those of a path of its leaves, each of them once, also when
the table is closed and opened again. -/
theorem Reaches.selectsRows (hc : filePagesNum ≤ c) (h : Reaches c uninit fuel ops s)
    (hops : (ops.map (·.key)).Nodup)
    (c' : ℕ) (uninit' : Addr → Page) : ∃ path, s.Path path ∧ s.SelectsRows (rowsAlong s.page path) ∧
      (Pager.init s.close c' uninit').SelectsRows (rowsAlong s.page path) := by
  obtain ⟨m, lvl, chain, hg, hkeys⟩ := h.grown hc
  have hnd : (m.keysOn chain).Nodup := by
    rw [hg.tree.rows_keys, Multiset.coe_eq_coe] at hkeys
    exact hkeys.nodup_iff.2 (nodup_keys hops)
  obtain ⟨p, hp⟩ : ∃ p, descend m.page 0 (lvl 0) 0 = p := ⟨_, rfl⟩
  have hpc : p ∈ chain := hp ▸ (hg.tree.leaves.mem _).2 (hg.tree.leaf_spec 0)
  obtain ⟨l₁, l₂, hch⟩ := List.append_of_mem hpc
  have hs := hg.tree.sorted_leaf hnd hpc
  have hrows : rowsAlong s.page (p :: l₂) = rowsAlong m.page (p :: l₂) := by
    unfold rowsAlong
    refine congrArg _ (List.flatMap_congr fun q hq => ?_)
    rw [hg.page_of_mem (hch ▸ List.mem_append_right l₁ hq)]
  -- the pages alone give these rows
  have hflat : ∀ fuel ≥ max (lvl 0) ((rowsAlong m.page (p :: l₂)).length + 1),
      ∀ steps ≥ max (lvl 0) ((rowsAlong m.page (p :: l₂)).length + 1),
        ∃ m', selectAll flatHandler Mem.rowAt fuel steps m =
          (.ok (rowsAlong m.page (p :: l₂)), m') := by
    intro fuel hfuel steps hsteps
    refine ⟨m, hg.tree.selectAll_eq ?_ hp hch hs ?_⟩
    · exact ((le_max_left _ _).trans hfuel).trans (Nat.le_succ _)
    · exact Nat.lt_of_succ_le ((le_max_right _ _).trans hsteps)
  obtain ⟨hwf, hpages⟩ := h.unflushed.close c' uninit'
  refine ⟨p :: l₂, hg.exists_path hp hch, ?_, ?_⟩
  · rw [hrows]
    exact .of_flat hg.sim.wf hg.sim.page hflat
  · rw [hrows]
    exact .of_flat hwf (fun q hq => (hpages q hq).trans (hg.sim.page q hq)) hflat

/-- Sixteen rows, which split the first leaf, and a cache for one page when the table is opened
again. -/
theorem Reaches.selectsRows_plain :
    ∃ path, (runTable filePagesNum 0 ((List.range 16).map plain)).2.Path path ∧
    (runTable filePagesNum 0 ((List.range 16).map plain)).2.SelectsRows
      (rowsAlong (runTable filePagesNum 0 ((List.range 16).map plain)).2.page path) ∧
    (Pager.init (runTable filePagesNum 0 ((List.range 16).map plain)).2.close 1 fun _ => Bytes.zero
      pageSize).SelectsRows
      (rowsAlong (runTable filePagesNum 0 ((List.range 16).map plain)).2.page path) :=
  Reaches.selectsRows le_rfl (reaches_runTable (by decide +kernel)) (by decide) 1 _

end ToySQL
