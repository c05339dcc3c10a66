import ToySQL.Proof.Step

/-!
# What an insertion does to the other rows

* `rowsKept_iff`: the rows stay as they are exactly if the leaf has room or is the root, or the
  separator of its halves is by chance where the code writes it.
-/

namespace ToySQL

open Program Page

/-- **The other rows are kept** exactly if the leaf has room or is the root, or the separator is
there already. -/
theorem rowsKept_iff {c fuel fuel' : ℕ} {uninit : Addr → Page} {ops : List Insertion}
    {op : Insertion} {s s' : Pager}
    (hc : filePagesNum ≤ c) (h : Reaches c uninit fuel ops s)
    (hrun : (insertRow fuel' op).run Pager.handler s = (.ok (), s')) :
    s'.rows = op.cell ::ₘ s.rows ↔
      ∀ q, LeadsTo s.page op.key.toNat rootPageNum q → (s.page q).numCells < leafNodeMaxCells ∨
        q = rootPageNum ∨
        (s.page q).SeparatorThere op.cell := by
  obtain ⟨m, lvl, chain, hg, -⟩ := h.grown hc
  obtain ⟨m', lvl', chain', hg', hrow⟩ := hg.after hc hrun
  have hlt := hg.leaf_lt op.key.toNat
  have hleads : ∀ q, LeadsTo s.page op.key.toNat rootPageNum q ↔
      q = descend m.page op.key.toNat (lvl 0) 0 := fun q => hg.leadsTo_iff
  simp only [hleads, forall_eq]
  obtain ⟨hp, hl⟩ := hg.tree.leaf_spec op.key.toNat
  obtain ⟨hleaf, hn, -⟩ := hg.tree.leaf_facts hp hl
  generalize descend m.page op.key.toNat (lvl 0) 0 = p at hrow hlt hp hl hleaf hn
  rw [hg'.rows, hg.rows, hg.page hlt]
  -- only the split of a full leaf below the root writes the stray separator
  by_cases hquiet : (m.page p).numCells < 15 ∨ p = 0
  · refine iff_of_true (hrow.quiet hquiet) ?_
    rcases hquiet with hroom | h0
    · exact Or.inl hroom
    · exact Or.inr (Or.inl h0)
  · rw [not_or, not_lt] at hquiet
    obtain ⟨hfull, hp0⟩ := hquiet
    obtain ⟨l, r, hh, hrows, -⟩ := hrow.stray (by omega) hp0
    have hthere : (l.stray (m.page p).maxKey).row 0 = l.row 0 ↔ (m.page p).SeparatorThere op.cell :=
      hh.separatorThere_iff hleaf
    rw [← hthere]
    constructor
    · intro hkept
      rw [hkept] at hrows
      exact Or.inr (Or.inr (Multiset.singleton_inj.1 (add_left_cancel hrows)).symm)
    · rintro (hroom | h0 | hrow0)
      · exact absurd hroom (not_lt.2 hfull)
      · exact absurd h0 hp0
      · rw [hrow0] at hrows
        exact add_right_cancel hrows

/-- 23 insertions in ascending order: the right leaf is full. -/
def fullRight : Pager := (runTable filePagesNum 0 ((List.range 23).map plain)).2

theorem reaches_fullRight :
    Reaches filePagesNum (fun _ => Bytes.zero pageSize) 0 ((List.range 23).map plain) fullRight :=
  reaches_runTable (by decide +kernel)

theorem rowsKept_iff_fullRight :
    ((insertRow 0 (plain 23)).run Pager.handler fullRight).2.rows =
      (plain 23).cell ::ₘ fullRight.rows ↔
      ∀ q, LeadsTo fullRight.page (plain 23).key.toNat rootPageNum q →
        (fullRight.page q).numCells < leafNodeMaxCells ∨
        q = rootPageNum ∨ (fullRight.page q).SeparatorThere (plain 23).cell :=
  rowsKept_iff le_rfl reaches_fullRight (run_of_isOk (by decide +kernel))

/-- **The next key changes a row**: the text of the row 8 gets the separator 15. -/
theorem not_rowsKept :
    Reaches filePagesNum (fun _ => Bytes.zero pageSize) 0 ((List.range 23).map plain) fullRight ∧
      ∃ s', (insertRow 0 (plain 23)).run Pager.handler fullRight = (.ok (), s') ∧
        s'.rows ≠ (plain 23).cell ::ₘ fullRight.rows := by
  refine ⟨reaches_fullRight, ((insertRow 0 (plain 23)).run Pager.handler fullRight).2, ?_,
    fun heq => ?_⟩
  · exact run_of_isOk (by decide +kernel)
  · have hrow : (plain 8).cell ∈ fullRight.rows := by decide +kernel
    have hnot : (plain 8).cell ∉ ((insertRow 0 (plain 23)).run Pager.handler fullRight).2.rows := by
      decide +kernel
    rw [heq] at hnot
    exact hnot (Multiset.mem_cons_of_mem hrow)

end ToySQL
