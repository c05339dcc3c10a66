import ToySQL.Proof.Parents
import ToySQL.Proof.Counted
import ToySQL.Spec.Leaf

/-!
# A full root leaf

* `Mem.splitsRoot_newRoot`: the pages after the split.
* `Mem.wp_splitRoot_leaf`, `Mem.wp_splitRoot`: the code of the split.
-/

namespace ToySQL

open Program Page

namespace Mem

variable {m : Mem} {c key : ℕ} {x : ℕ × Bytes rowSize} {l r : Page}

/-- The rows do not depend on the parent field. -/
theorem rows_store_parent (a : Page) (v : ℕ) : (a.store .parent v).rows = a.rows :=
  rows_of_row ((SameHeader.store_header .parent v).numCells (by simp)) fun _ _ =>
    row_store_header .parent _

/-- The first key of the lower half is where the new root looks for its first child. -/
theorem child_zero (a : Page) : a.child 0 = a.key 0 := rfl

/-- **The pages after the split.** -/
theorem splitsRoot_newRoot (h0 : 0 < m.numPages) (hN : m.numPages + 1 < filePagesNum)
    (hl : (m.page 0).isLeaf = true)
    (hm : m.Tight) (hh : Halves (m.page 0) m.numPages c x l r) :
    SplitsRoot m.page (((m.alloc.set 0 l).set m.numPages r).newRoot m.numPages).page c x
      (m.numPages + 1) m.numPages := by
  have hnum : ((m.alloc.set 0 l).set m.numPages r).numPages = m.numPages + 1 := hm.numPages_alloc
  have hroot : ((m.alloc.set 0 l).set m.numPages r).page 0 = l := by
    rw [page_set_ne _ _ h0.ne, page_set_self]
  have hpage : ∀ q, (((m.alloc.set 0 l).set m.numPages r).newRoot m.numPages).page q = _ :=
    fun q => newRoot_page q h0.ne' (by omega) (by omega)
  rw [hroot, hnum, page_set_self] at hpage
  generalize ((m.alloc.set 0 l).set m.numPages r).newRoot m.numPages = m' at hpage ⊢
  have hpage0 : m'.page rootPageNum = l.asRoot (m.numPages + 1) l.maxKey m.numPages :=
    (hpage 0).trans (if_pos rfl)
  have hpagel := hpage (m.numPages + 1)
  have hpager := hpage m.numPages
  rw [if_neg (by omega), if_pos rfl] at hpagel
  rw [if_neg (by omega), if_neg (by omega), if_pos rfl] at hpager
  unfold filePagesNum at hN
  -- the new root has the one cell written by `create_new_root`
  have hspec :=
    asRoot_spec l (m.numPages + 1) l.maxKey m.numPages (by omega) (maxKey_lt l) (by omega)
  have hleaf := hh.isLeaf hl
  have hleft := SameHeader.asLeft l
  have hright : (r.store .parent 0).SameHeader r [2] := SameHeader.store_header .parent 0
  have hslot := hspec.slot 0 (by omega)
  rw [if_pos rfl] at hslot
  have hchild : (l.asRoot (m.numPages + 1) l.maxKey m.numPages).child 0 = m.numPages + 1 :=
    congrArg Prod.fst hslot
  have hsep : (l.asRoot (m.numPages + 1) l.maxKey m.numPages).sep 0 = l.maxKey :=
    congrArg Prod.snd hslot
  constructor
  · rw [hpage0]
    exact hspec.internal
  · rw [hpage0]
    exact hspec.numKeys
  · rw [hpage0, children, hspec.numKeys, hspec.right, List.range_one, List.map_singleton, hchild]
    rfl
  · rw [hpagel, hpager, hleft.isLeaf (by simp), hright.isLeaf (by simp)]
    exact ⟨hleaf, hh.newLeaf⟩
  · rw [hpagel, rows_asLeft]
    exact hh.rows
  · rw [hpager, rows_store_parent]
    exact hh.newRows
  · rw [hpagel, hpager, hleft.numCells (by simp), hright.numCells (by simp)]
    exact ⟨hh.numCells, hh.newCells⟩
  · rw [hpage0, hpagel, hsep]
    unfold keys
    rw [rows_asLeft]
    exact getLast_keys hleaf (by rw [hh.numCells]; decide)
  · rw [hpagel, hpager, hleft.nextLeaf (by simp), hright.nextLeaf (by simp)]
    exact ⟨hh.nextLeaf, hh.newNext⟩
  · rw [hpagel, hpager]
    exact ⟨parent_asLeft l, parent_store_parent (by decide)⟩
  · unfold rootPageNum
    simp only [List.nodup_cons, List.mem_cons, List.not_mem_nil, or_false, not_false_eq_true,
      List.nodup_nil, and_true]
    omega
  · rw [hpage0, hpagel, hpager, hright.isRoot (by simp)]
    exact ⟨hspec.root, isRoot_asLeft l, hh.newRoot⟩

variable {K T : ℕ → Prop} [DecidablePred K] [DecidablePred T] {F : Fault → Mem → Prop}

/-- The split up to `create_new_root`. -/
theorem wp_splitRoot_leaf {fuel : ℕ} {e : Bool} {row : Row} {Q : Unit → Mem → Prop} (hm : m.Tight)
    (h0 : 0 < m.numPages)
    (hN : m.numPages + 1 < filePagesNum) (hT : ∀ q ∈ [0, m.numPages, m.numPages + 1], T q)
    (hleaf : (m.page 0).isLeaf = true) (hroot : (m.page 0).isRoot = true)
    (hfull : (m.page 0).numCells = 15)
    (hc : c ≤ 15) (hkey : key < 2 ^ 32)
    (h : ∀ l r, Halves (m.page 0) m.numPages c (key, row.serialize) l r →
      wp (handler K T) (createNewRoot fuel m.numPages) Q F ((m.alloc.set 0 l).set m.numPages r)) :
    wp (handler K T) (leafNodeSplitAndInsert fuel ⟨0, c, e⟩ key row) Q F m := by
  simp only [List.forall_mem_cons] at hT
  obtain ⟨hT0, hTN, -⟩ := hT
  rw [leafNodeSplitAndInsert_eq, wp_bind]
  refine wp_leafNodeSplit hm h0 hT0 (by unfold filePagesNum at hN; omega) hleaf hfull hc hkey
    (fun hn => absurd hTN hn)
    (fun _ _ l r hh => h l r hh) fun _ hn => ?_
  rw [hroot] at hn
  cases hn

/-- The split leaves no gap. -/
theorem tight_splitRoot {fuel : ℕ} {e : Bool} {row : Row} (hm : m.Tight) (h0 : 0 < m.numPages)
    (hN : m.numPages + 1 < filePagesNum) (hleaf : (m.page 0).isLeaf = true)
    (hroot : (m.page 0).isRoot = true)
    (hfull : (m.page 0).numCells = 15) (hc : c ≤ 15) (hkey : key < 2 ^ 32) :
    ((leafNodeSplitAndInsert fuel ⟨0, c, e⟩ key row).run
      (handler (fun _ => True) (· ∈ [0, m.numPages, m.numPages + 1])) m).2.Tight := by
  refine wp_state.1
    (wp_splitRoot_leaf hm h0 hN (fun _ hq => hq) hleaf hroot hfull hc hkey fun l r _ => ?_)
  refine wp_state.2 (Pager.Flat.tight_run _ hm.alloc fun q hq => ?_)
  have hnum : ((m.alloc.set 0 l).set m.numPages r).numPages = m.numPages + 1 := hm.numPages_alloc
  rw [hnum]
  simp only [List.mem_cons, List.not_mem_nil, or_false] at hq
  omega

/-- **The split of a root leaf**, in flat memory. -/
theorem wp_splitRoot {fuel : ℕ} {e : Bool} {row : Row} (hm : m.Tight) (h0 : 0 < m.numPages)
    (hN : m.numPages + 1 < filePagesNum) (hleaf : (m.page 0).isLeaf = true)
    (hroot : (m.page 0).isRoot = true)
    (hfull : (m.page 0).numCells = 15) (hc : c ≤ 15) (hkey : key < 2 ^ 32)
    (hasc : ((m.page 0).keys.insertIdx c key).Pairwise (· < ·)) :
    wp (handler (fun _ => True) (· ∈ [0, m.numPages, m.numPages + 1]))
      (leafNodeSplitAndInsert fuel ⟨0, c, e⟩ key row)
      (fun _ m' => SplitsRoot m.page m'.page c (key, row.serialize) (m.numPages + 1) m.numPages)
        (fun _ _ => False) m := by
  refine wp_splitRoot_leaf hm h0 hN (fun _ hq => hq) hleaf hroot hfull hc hkey fun l r hh => ?_
  have hpage : ((m.alloc.set 0 l).set m.numPages r).page 0 = l := by
    rw [page_set_ne _ _ h0.ne, page_set_self]
  have hnum : ((m.alloc.set 0 l).set m.numPages r).numPages = m.numPages + 1 := hm.numPages_alloc
  have hsorted : l.keys.Pairwise (· < ·) := by
    have h : (l.keys ++ r.keys).Pairwise (· < ·) := by rw [hh.keys_append]; exact hasc
    exact (List.pairwise_append.1 h).1
  refine wp_createNewRoot_leaf (m := (m.alloc.set 0 l).set m.numPages r) hm.alloc (by omega)
    (by omega) h0.ne' ⟨?_, ?_⟩
    (by rw [hpage]; exact hh.isLeaf hleaf) (by rw [hpage, hh.numCells]; omega) trivial
    (fun hv => ?_) (fun hT => ?_)
    fun _ => splitsRoot_newRoot h0 hN hleaf hm hh
  · simp
  · simp
  · rw [hpage, child_zero] at hv
    exact absurd hv (key_ne_invalid hh.numCells hsorted)
  · rw [hnum] at hT
    simp at hT

end Mem

end ToySQL
