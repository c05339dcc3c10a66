import ToySQL.Proof.NoPage
import ToySQL.Proof.Reach
import ToySQL.Proof.RootSplit

/-!
# The split of a root leaf

* `splitsRoot`: a full root leaf is split into two leaves below a new root, if two pages are
  left. With fewer pages the split does not complete.
-/

namespace ToySQL

open Program Page

/-- The pages after the split are below the bound of the file. -/
theorem SplitsRoot.congr {page page₁ page₂ : ℕ → Page} {c left right N : ℕ} {x : ℕ × Bytes rowSize}
    (h : SplitsRoot page page₁ c x left right) (hpage : ∀ q < N, page₂ q = page₁ q)
    (h0 : rootPageNum < N) (hl : left < N)
    (hr : right < N) : SplitsRoot page page₂ c x left right := by
  refine ⟨?_, ?_, ?_, ?_, ?_, ?_, ?_, ?_, ?_, ?_, h.distinct, ?_⟩
  all_goals simp only [hpage _ h0, hpage _ hl, hpage _ hr]
  · exact h.internal
  · exact h.numKeys
  · exact h.children
  · exact h.leaf
  · exact h.lower
  · exact h.upper
  · exact h.numCells
  · exact h.sep
  · exact h.nextLeaf
  · exact h.parent
  · exact h.isRoot

/-- **The split of a full root leaf.** It completes if two pages are left. -/
theorem splitsRoot {s : Pager} {fuel c : ℕ} {e : Bool} {key : UInt32} {row : Row} (hs : s.Counted)
    (hcache : 3 ≤ s.cache.maxPages) (h0 : rootPageNum < s.numPages)
    (hleaf : (s.page rootPageNum).isLeaf = true)
    (hroot : (s.page rootPageNum).isRoot = true)
    (hfull : (s.page rootPageNum).numCells = leafNodeMaxCells)
    (hc : c ≤ leafNodeMaxCells)
    (hasc : ((s.page rootPageNum).keys.insertIdx c key.toNat).Pairwise (· < ·)) :
    (∀ s₂, (leafNodeSplitAndInsert fuel ⟨rootPageNum, c, e⟩ key.toNat row).run Pager.handler s =
      (.ok (), s₂) →
      SplitsRoot s.page s₂.page c (key.toNat, row.serialize) (s.numPages + 1) s.numPages) ∧
    (s.numPages + 2 ≤ filePagesNum →
      ∃ s₂, (leafNodeSplitAndInsert fuel ⟨rootPageNum, c, e⟩ key.toNat row).run Pager.handler s =
        (.ok (), s₂)) := by
  rcases lt_or_ge (s.numPages + 1) filePagesNum with hN | hN
  -- old root, new leaf and copy are the only pages used
  · have hfits : Fits (· ∈ [0, s.numPages, s.numPages + 1]) s.cache.maxPages := by
      refine fits_list (fun q hq => ?_) (le_max_of_le_right hcache)
      simp only [List.mem_cons, List.not_mem_nil, or_false] at hq
      omega
    have hwp := hs.flat.wp_of_tight s.flat_tight hfits
      (fun _ => match_leafNodeSplitAndInsert fuel ⟨rootPageNum, c, e⟩ key.toNat row)
      (Mem.wp_splitRoot (m := s.flat) s.flat_tight h0 hN hleaf hroot hfull hc key.toNat_lt hasc)
      (Mem.tight_splitRoot (m := s.flat) s.flat_tight h0 hN hleaf hroot hfull hc key.toNat_lt)
      fun _ _ h => h
    rw [Pager.strict_true] at hwp
    constructor
    · intro s₂ hrun
      obtain ⟨-, m', hsplit, hflat⟩ := wp_ok hwp hrun
      exact hsplit.congr hflat.page (by decide) hN (Nat.lt_of_succ_lt hN)
    · intro _
      obtain ⟨_, s₂, hrun, -⟩ :=
        wp_total (wp_mono hwp (fun _ _ h => h) fun _ _ h => h.2.choose_spec.1)
      exact ⟨s₂, hrun⟩
  -- one page left is not enough
  · refine ⟨fun s₂ hrun => ?_, fun h => absurd h (by omega)⟩
    exact (wp_ok (Q := fun _ _ => False)
      (Pager.wp_leafNodeSplitAndInsert_noPage ⟨hs, hN⟩ (by decide) hleaf hfull.le hroot
      (F := fun _ _ => True) fun _ _ => trivial) hrun).elim

/-- A root leaf with the keys 0, 10, .. 140. -/
def rootLeaf : Pager := (runTable filePagesNum 0 ((List.range 15).map fun i => plain (10 * i))).2

theorem splitsRoot_rootLeaf :
    ∃ s₂, (leafNodeSplitAndInsert 0 ⟨rootPageNum, 8, false⟩ (75 : UInt32).toNat (plain 75).row).run
      Pager.handler rootLeaf
        = (.ok (), s₂) ∧
      SplitsRoot rootLeaf.page s₂.page 8 ((75 : UInt32).toNat, (plain 75).row.serialize)
        (rootLeaf.numPages + 1)
        rootLeaf.numPages := by
  have hs : rootLeaf.Counted := Reaches.counted le_rfl (reaches_runTable (by decide +kernel))
  have hasc : ((rootLeaf.page rootPageNum).keys.insertIdx 8 (75 : UInt32).toNat).Pairwise
      (· < ·) := by decide +kernel
  obtain ⟨hsplit, hrun⟩ :=
    @splitsRoot _ 0 8 false 75 (plain 75).row hs (by decide +kernel) (by decide +kernel)
    (by decide +kernel) (by decide +kernel) (by decide +kernel) (by decide) hasc
  obtain ⟨s₂, hrun⟩ := hrun (by decide +kernel)
  exact ⟨s₂, hrun, hsplit s₂ hrun⟩

end ToySQL
