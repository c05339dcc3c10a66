import ToySQL.Proof.FindChild
import ToySQL.Proof.Reach

/-!
# The child of an internal node for a key

* `findsChild`: over any number of keys below `2 ^ 31`, the search returns without
  wrap-around, with an index in `0 .. n`; among ascending keys it is the first one that is
  not smaller than the key.

The node is any memory that answers the accessors; `Pager.keysAt` is the one of a page.
-/

namespace ToySQL

open Program

variable {P σ : Type} {h : Handler (pagerInterface P) Fault σ} {s : σ} {p : P} {n : ℕ} {key : ℕ → ℕ}

/-- The least index of a key that is not smaller than `k`, or `n` if there is none. -/
def LowerBound (key : ℕ → ℕ) (n k i : ℕ) : Prop := IsLeast {j | j < n ∧ k ≤ key j} i ∨ i = n ∧
    ∀ j < n, key j < k

/-- What `internal_node_find_child` does with the keys of a node. -/
structure FindsChild (h : Handler (pagerInterface P) Fault σ) (s : σ) (p : P) (n : ℕ) (key : ℕ → ℕ)
    (k i : ℕ) : Prop where
  returns : (internalNodeFindChild p k).run h s = (.ok i, s)
  /-- The routine that ends where an index wraps around returns the same. -/
  noWrap : (internalNodeFindChildChecked p k).run h s = (.ok i, s)
  le : i ≤ n
  lowerBound : (∀ j j', j ≤ j' → j' < n → key j ≤ key j') → LowerBound key n k i

/-- Over ascending keys the comparison is monotone. -/
theorem cmpLe_monotone (hkey : ∀ j j', j ≤ j' → j' < n → key j ≤ key j') (k : ℕ) :
    Monotone3 (cmpLe key k) n := by
  have hgt : ∀ i, cmpLe key k i = .gt ↔ key i < k := by
    intro i
    unfold cmpLe
    split_ifs with hk
    · exact iff_of_false nofun (not_lt.2 hk)
    · exact iff_of_true rfl (not_le.1 hk)
  have hlt : ∀ i, cmpLe key k i = .lt ↔ k ≤ key i := by
    intro i
    unfold cmpLe
    split_ifs with hk
    · exact iff_of_true rfl hk
    · exact iff_of_false nofun hk
  refine ⟨fun i j hij hj h => ?_, fun i j hij hj h => ?_⟩
  · exact (hgt i).2 ((hkey i j hij hj).trans_lt ((hgt j).1 h))
  · exact (hlt j).2 (((hlt i).1 h).trans (hkey i j hij hj))

/-- What the search finds is the lower bound. -/
theorem Found.lowerBound {k i : ℕ} (hf : Found (cmpLe key k) n i) : LowerBound key n k i := by
  have hbelow : ∀ j < i, key j < k := by
    intro j hj
    by_contra hk
    exact hf.below j hj (if_pos (not_lt.1 hk))
  rcases hf.le.lt_or_eq with hlt | heq
  · refine Or.inl ⟨⟨hlt, ?_⟩, fun j hj => ?_⟩
    · by_contra hk
      exact hf.above i le_rfl hlt (if_neg hk)
    · by_contra hji
      exact absurd hj.2 (not_le.2 (hbelow j (not_le.1 hji)))
  · exact Or.inr ⟨heq, fun j hj => hbelow j (heq ▸ hj)⟩

/-- **`internal_node_find_child` is a lower bound.** -/
theorem findsChild (hkeys : KeysAt h s p n key) (hn : n < 2 ^ 31) (k : ℕ) :
    ∃ i, FindsChild h s p n key k i := by
  refine ⟨searchAll (cmpLe key k) n, ?_, ?_, ?_, fun hkey => ?_⟩
  · exact run_internalNodeFindChild hkeys hn k
  · exact run_internalNodeFindChildChecked hkeys hn k
  · exact searchAll_le _ _
  · exact (searchAll_found (cmpLe_monotone hkey k)).lowerBound

/-- The keys of a page, as far as they are inside it. -/
theorem Pager.keysAt (s : Pager) (a : Addr) (hin : (s.heap.entry a).data.numKeys ≤ 500) :
    KeysAt Pager.handler s a (s.heap.entry a).data.numKeys (s.heap.entry a).data.sep := by
  refine ⟨rfl, fun i hi => ?_⟩
  have hoff : (Loc.internalKey i).offset + (Loc.internalKey i).width ≤ pageSize := by
    rw [Loc.offset_internalKey (by omega)]
    show _ + 4 ≤ 4096
    omega
  simp only [Pager.handler, if_pos hoff]
  rfl

/-- A pager with one cached page: a node with the keys 10, 20 and 20. -/
def threeKeys : Pager :=
  { Pager.new 1 with heap := [⟨0, nodeOf 0 4 [(1, 10), (2, 20), (3, 20)], true⟩] }

theorem threeKeys_numKeys : (threeKeys.heap.entry 0).data.numKeys = 3 := by decide +kernel

theorem findsChild_threeKeys :
    ∃ i, FindsChild Pager.handler threeKeys 0 3 (threeKeys.heap.entry 0).data.sep 15 i := by
  have hkeys := threeKeys.keysAt 0 (by rw [threeKeys_numKeys]; decide)
  rw [threeKeys_numKeys] at hkeys
  exact findsChild hkeys (by decide) 15

end ToySQL
