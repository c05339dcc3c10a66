import ToySQL.Proof.MaxKey
import ToySQL.Proof.Parents
import ToySQL.Proof.Reach

/-!
# The largest key of a subtree

* `Subtree.maxKey_iff`: `get_node_max_key` returns the largest key below a node exactly if no
  node from it down to a leaf has a key. For a node with keys it returns the last separator,
  and passes over the right child.
-/

namespace ToySQL

open Program Page

namespace Subtree

variable {page : ℕ → Page} {q : ℕ} {keys : Set ℕ}

/-- The root of a subtree is a page of the file. -/
theorem lt (h : Subtree page q keys) : q < filePagesNum := by
  cases h with
  | leaf hlt _ _ _ _ => exact hlt
  | node hlt _ _ _ _ _ => exact hlt

/-- A subtree has a key. -/
theorem nonempty (h : Subtree page q keys) : keys.Nonempty := by
  induction h with
  | leaf _ _ _ hne _ => exact List.exists_mem_of_ne_nil _ hne
  | node _ _ _ _ _ _ ih =>
    obtain ⟨k, hk⟩ := ih 0 (Nat.zero_le _)
    exact ⟨k, 0, Nat.zero_le _, hk⟩

/-- The last key of a leaf is its largest one. -/
theorem isGreatest_leaf (hl : (page q).isLeaf = true) (hne : (page q).keys ≠ [])
    (hs : (page q).keys.Pairwise (· < ·)) :
    (page q).numCells ≠ 0 ∧
      IsGreatest {k | k ∈ (page q).keys} ((page q).key ((page q).numCells - 1)) := by
  have h0 : (page q).numCells ≠ 0 := by
    rw [← length_keys]
    exact fun h0 => hne (List.length_eq_zero_iff.1 h0)
  have hlast := getLast_keys hl h0
  rw [maxKey, if_pos hl, if_neg h0] at hlast
  exact ⟨h0, List.mem_of_getLast? hlast, fun k hk => le_of_getLast hs hlast hk⟩

/-- **What `get_node_max_key` finds**, and when that is the largest key. -/
theorem path (h : Subtree page q keys) :
    ∃ l k, MaxPath page q l k ∧ (IsGreatest keys k ↔ Keyless page q) := by
  induction h with
  | @leaf q _ hl hn hne hs =>
    obtain ⟨h0, hgreatest⟩ := isGreatest_leaf hl hne hs
    have hlt : (page q).numCells - 1 < 15 := by
      have hn' : (page q).numCells ≤ 15 := hn
      omega
    have haccess : Mem.Access (fun _ => True) (page q) (.leafKey ((page q).numCells - 1)) :=
      Mem.access_leafKey hlt
    exact ⟨[], _, .leaf hl h0 haccess.1, iff_of_true hgreatest (.leaf hl)⟩
  | @node q keys hlt hi hfit hsub hsep hasc ih =>
    have hl := not_isLeaf_of_isInternal hi
    by_cases h0 : (page q).numKeys = 0
    · -- the right child is the only one
      have hchild : (page q).childAt 0 = (page q).rightChild := if_neg (by omega)
      have hkeys : {k | ∃ i ≤ (page q).numKeys, k ∈ keys i} = keys 0 := by
        ext k
        constructor
        · rintro ⟨i, hi, hk⟩
          obtain rfl : i = 0 := by omega
          exact hk
        · exact fun hk => ⟨0, Nat.zero_le _, hk⟩
      obtain ⟨l, k, hpath, hiff⟩ := ih 0 (Nat.zero_le _)
      have hsub₀ := hsub 0 (Nat.zero_le _)
      rw [hchild] at hpath hiff hsub₀
      refine ⟨_, k, .right hl h0 hsub₀.lt hpath, ?_⟩
      rw [hkeys, hiff]
      constructor
      · exact Keyless.node hl h0
      · rintro (hl' | ⟨-, -, hright⟩)
        · rw [hl] at hl'
          cases hl'
        · exact hright
    · -- a key below the right child is above the last separator
      have hlast : (page q).numKeys - 1 < (page q).numKeys := by omega
      obtain ⟨k, hk⟩ := (hsub _ le_rfl).nonempty
      have hbelow : (page q).sep ((page q).numKeys - 1) < k := by
        refine hasc _ hlast _ (hsep _ hlast).1 k ?_
        rwa [Nat.sub_add_cancel (Nat.pos_of_ne_zero h0)]
      refine ⟨[], _, .keys hl h0 ?_, iff_of_false (fun hgreatest => ?_) ?_⟩
      · unfold internalNodeHeaderSize internalNodeCellSize internalNodeChildSize internalNodeKeySize
          commonNodeHeaderSize
          nodeTypeSize isRootSize parentPointerSize pageSize at hfit
        rw [Loc.offset_internalKey (by omega)]
        unfold pageSize
        omega
      · exact absurd (hgreatest.2 ⟨_, le_rfl, hk⟩) (not_le.2 hbelow)
      · rintro (hl' | ⟨-, h0', -⟩)
        · rw [hl] at hl'
          cases hl'
        · exact h0 h0'

/-- **`get_node_max_key` returns the largest key below a node** exactly if no node from it down
to a leaf has a key. -/
theorem maxKey_iff {s : Pager} (hs : s.Wf) (h : Subtree s.page q keys) :
    (∃ k, s.MaxKey q k ∧ IsGreatest keys k) ↔ Keyless s.page q := by
  obtain ⟨l, k, hpath, hiff⟩ := h.path
  rw [← hiff]
  constructor
  · rintro ⟨k', hk', hgreatest⟩
    obtain ⟨-, l', hpath'⟩ := (Pager.maxKey_iff_path hs).1 hk'
    obtain ⟨-, rfl⟩ := hpath.unique hpath'
    exact hgreatest
  · exact fun hgreatest => ⟨k, (Pager.maxKey_iff_path hs).2 ⟨h.lt, l, hpath⟩, hgreatest⟩

end Subtree

/-- 16 insertions in ascending order: the root has the leaves 2 and 1. -/
def splitOnce : Pager := (runTable filePagesNum 0 ((List.range 16).map plain)).2

theorem reaches_splitOnce :
    Reaches filePagesNum (fun _ => Bytes.zero pageSize) 0 ((List.range 16).map plain) splitOnce :=
  reaches_runTable (by decide +kernel)

theorem subtree_splitOnce : ∀ i ≤ (splitOnce.page 0).numKeys,
    Subtree splitOnce.page ((splitOnce.page 0).childAt i)
      {k | k ∈ (below splitOnce.page 0 i).keys} := by
  have h : ∀ i ≤ (splitOnce.page 0).numKeys, (splitOnce.page 0).childAt i < filePagesNum ∧
      (below splitOnce.page 0 i).isLeaf = true ∧ (below splitOnce.page 0 i).numCells ≤
        leafNodeMaxCells ∧
        (below splitOnce.page 0 i).keys ≠ [] ∧
          (below splitOnce.page 0 i).keys.Pairwise (· < ·) := by decide +kernel
  intro i hi
  obtain ⟨hlt, hl, hn, hne, hs⟩ := h i hi
  exact .leaf hlt hl hn hne hs

theorem maxKey_iff_splitOnce :
    (∃ k, splitOnce.MaxKey ((splitOnce.page 0).childAt 1) k ∧
      IsGreatest {k | k ∈ (below splitOnce.page 0 1).keys} k) ↔
      Keyless splitOnce.page ((splitOnce.page 0).childAt 1) :=
  Subtree.maxKey_iff (reaches_splitOnce.counted le_rfl).wf (subtree_splitOnce 1 (by decide +kernel))

/-- **The maximum of a root** with two leaves is that of the first one. -/
theorem not_maxKey_splitOnce :
    Reaches filePagesNum (fun _ => Bytes.zero pageSize) 0 ((List.range 16).map plain) splitOnce ∧
      Subtree splitOnce.page 0 {k | ∃ i ≤ (splitOnce.page 0).numKeys,
        k ∈ (below splitOnce.page 0 i).keys} ∧
      splitOnce.MaxKey 0 7 ∧
      15 ∈ {k | ∃ i ≤ (splitOnce.page 0).numKeys, k ∈ (below splitOnce.page 0 i).keys} := by
  -- the root has the separator 7 between the keys 0 to 7 and 8 to 15
  have hkeys : (splitOnce.page 0).numKeys = 1 ∧ (splitOnce.page 0).sep 0 = 7 ∧
      (splitOnce.page 0).isInternal = true := by
    decide +kernel
  obtain ⟨hn, hsep, hi⟩ := hkeys
  have hchildren : (below splitOnce.page 0 0).keys = List.range 8 ∧
      (below splitOnce.page 0 1).keys = List.range' 8 8 := by
    decide +kernel
  refine ⟨reaches_splitOnce, .node (by decide) hi ?_ subtree_splitOnce ?_ ?_, ?_, ?_⟩
  · rw [hn]
    decide
  · intro i hlt
    obtain rfl : i = 0 := by omega
    rw [hsep, hchildren.1]
    exact ⟨List.mem_range.2 (by decide), fun k hk => Nat.le_of_lt_succ (List.mem_range.1 hk)⟩
  · intro i hlt k hk k' hk'
    obtain rfl : i = 0 := by omega
    rw [hchildren.1] at hk
    rw [hchildren.2] at hk'
    have h1 := List.mem_range.1 hk
    have h2 := List.mem_range'_1.1 hk'
    omega
  · refine (Pager.maxKey_iff_path (reaches_splitOnce.counted le_rfl).wf).2 ⟨by decide, [], ?_⟩
    have hpath :
        MaxPath splitOnce.page 0 [] ((splitOnce.page 0).sep ((splitOnce.page 0).numKeys - 1)) :=
      .keys (not_isLeaf_of_isInternal hi) (by rw [hn]; decide) (by rw [hn]; decide)
    rwa [hn, hsep] at hpath
  · refine ⟨1, hn.ge, ?_⟩
    rw [hchildren.2]
    decide

end ToySQL
