import ToySQL.Proof.Fields
import ToySQL.Proof.FindChild

/-!
# The node functions in flat memory

The functions of `btree.cpp` that read a node compute functions of its page and leave
the memory alone: `getNodeMaxKey` the last key (`maxKey`), `internalNodeFindChild` and
`leafNodeFind` a binary search (`findChild`, `findCell`). The two
initialisations and the shifts of cells change one page.
-/

namespace ToySQL

open Program

namespace Page

variable (pg : Page)

/-- What `Table::get_node_max_key` returns for a node that has a key. -/
def maxKey : ℕ :=
  if pg.isLeaf then if pg.numCells = 0 then 0 else pg.key (pg.numCells - 1)
  else pg.sep (pg.numKeys - 1)

/-- How a key compares with the separators: `.lt` from the first one that is not
smaller. -/
def cmpSep (key i : ℕ) : Ordering := if key ≤ pg.sep i then .lt else .gt

/-- How a key compares with the keys of a leaf. -/
def cmpKey (key i : ℕ) : Ordering :=
  if key = pg.key i then .eq else if key < pg.key i then .lt else .gt

/-- What `Table::internal_node_find_child` returns. -/
def findChild (key : ℕ) : ℕ := searchAll (pg.cmpSep key) pg.numKeys

/-- The cell `Table::leaf_node_find` puts the cursor on. -/
def findCell (key : ℕ) : ℕ := searchAll (pg.cmpKey key) pg.numCells

/-- The search of a node gives a slot. -/
theorem findChild_le (key : ℕ) : pg.findChild key ≤ pg.numKeys := searchAll_le _ _

/-- The search of a leaf gives a place. -/
theorem findCell_le (key : ℕ) : pg.findCell key ≤ pg.numCells := searchAll_le _ _

/-- The page after `initialize_internal_node`. -/
def initInternal : Page :=
  (((pg.store .nodeType 0).store .isRoot 0).store .numKeys 0).store .rightChild invalidPageNum

/-- The page after `initialize_leaf_node`. -/
def initLeaf : Page :=
  (((pg.store .nodeType 1).store .isRoot 0).store .numCells 0).store .nextLeaf 0

end Page

namespace Mem

variable {K T : ℕ → Prop} [DecidablePred K] [DecidablePred T] {m : Mem} {p : ℕ}
  {F : Fault → Mem → Prop}

@[simp] theorem wp_getNodeType {Q : NodeType → Mem → Prop} :
    wp (handler K T) (getNodeType p) Q F m ↔ Q (m.page p).type m := by
  simp [getNodeType, wp_load, Page.type]

@[simp] theorem wp_isNodeRoot {Q : Bool → Mem → Prop} :
    wp (handler K T) (isNodeRoot p) Q F m ↔ Q (m.page p).isRoot m := by
  simp [isNodeRoot, wp_load, Page.isRoot]

@[simp] theorem wp_setNodeRoot {Q : Unit → Mem → Prop} {b : Bool} :
    wp (handler K T) (setNodeRoot p b) Q F m ↔
      Q () (m.set p ((m.page p).store .isRoot b.toNat)) := by
  simp [setNodeRoot, wp_store]

@[simp] theorem wp_initializeInternalNode {Q : Unit → Mem → Prop} :
    wp (handler K T) (initializeInternalNode p) Q F m ↔ Q () (m.set p (m.page p).initInternal) := by
  simp [initializeInternalNode, setNodeType, setNodeRoot, wp_store, Page.initInternal,
    NodeType.toByte]

@[simp] theorem wp_initializeLeafNode {Q : Unit → Mem → Prop} :
    wp (handler K T) (initializeLeafNode p) Q F m ↔ Q () (m.set p (m.page p).initLeaf) := by
  simp [initializeLeafNode, setNodeType, setNodeRoot, wp_store, Page.initLeaf, NodeType.toByte]

/-! ## Children -/

theorem wp_internalNodeChild_cell {Q : Loc → Mem → Prop} {i : ℕ} (hi : i < (m.page p).numKeys)
    (h : i < 500) (hv : (m.page p).child i ≠ invalidPageNum) :
    wp (handler K T) (internalNodeChild p i) Q F m ↔ Q (.internalCell i) m := by
  unfold Page.numKeys at hi
  unfold Page.child at hv
  simp [internalNodeChild, wp_load, access_internalCell h, hi.not_gt, hi.ne, hv]

/-- The slot behind the cells is the right child. -/
theorem wp_internalNodeChild_right {Q : Loc → Mem → Prop}
    (hv : (m.page p).rightChild ≠ invalidPageNum) :
    wp (handler K T) (internalNodeChild p (m.page p).numKeys) Q F m ↔ Q .rightChild m := by
  unfold Page.rightChild at hv
  simp [internalNodeChild, wp_load, Page.numKeys, hv]

/-- A slot that holds `INVALID_PAGE_NUM` ends the process. -/
theorem wp_internalNodeChild_invalid {Q : Loc → Mem → Prop} {i : ℕ}
    (hi : i < (m.page p).numKeys) (h : i < 500) (hv : (m.page p).child i = invalidPageNum) :
    wp (handler K T) (internalNodeChild p i) Q F m ↔
      F (.exit ("Tried to access child " ++ toString i ++ " of node, but was invalid page")) m := by
  unfold Page.numKeys at hi
  unfold Page.child at hv
  simp [internalNodeChild, wp_load, access_internalCell h, hi.not_gt, hi.ne, hv]

/-! ## Maxima -/

/-- The last key of the node is in place. -/
structure MaxOk (K : ℕ → Prop) (pg : Page) : Prop where
  leaf : pg.isLeaf → pg.numCells ≤ 15
  internal : ¬ pg.isLeaf → pg.numKeys ≠ 0 ∧ pg.numKeys ≤ 3 ∧ K (pg.numKeys - 1)

/-- One call of `get_node_max_key`, which never goes deeper. -/
theorem wp_getNodeMaxKeyStep {Q : ℕ → Mem → Prop} {next : ℕ → Prog ℕ ℕ} (h : MaxOk K (m.page p)) :
    wp (handler K T) (getNodeMaxKeyStep next p) Q F m ↔ Q (m.page p).maxKey m := by
  unfold getNodeMaxKeyStep Page.maxKey
  by_cases hl : (m.page p).isLeaf = true
  · have hn := h.leaf hl
    have ht : (m.page p).type = .leaf := by simpa [Page.isLeaf] using hl
    unfold Page.numCells at hn
    by_cases h0 : (m.page p).load .numCells = 0
    · simp [ht, hl, wp_load, Page.numCells, h0]
    · have hlt : (m.page p).load .numCells - 1 < 15 := by omega
      simp [ht, hl, wp_load, Page.numCells, Page.key, h0, access_leafKey hlt]
  · obtain ⟨h0, h3, hK⟩ := h.internal hl
    have ht : (m.page p).type ≠ .leaf := by simpa [Page.isLeaf] using hl
    unfold Page.numKeys at h0 h3 hK
    have hlt : (m.page p).load .numKeys - 1 < 500 := by omega
    simp [ht, hl, wp_load, Page.numKeys, Page.sep, h0, access_internalKey hlt hK]

/-- **`get_node_max_key`** of a page that has a last key. -/
theorem wp_getNodeMaxKey {Q : ℕ → Mem → Prop} (fuel : ℕ) (h : MaxOk K (m.page p)) :
    wp (handler K T) (getNodeMaxKey fuel p) Q F m ↔ Q (m.page p).maxKey m := by
  cases fuel with
  | zero => exact wp_getNodeMaxKeyStep h
  | succ fuel => exact wp_getNodeMaxKeyStep h

/-! ## Searches -/

theorem handler_load {l : Loc} (hl : Access K (m.page p) l) :
    handler K T (.load p l) m = (.ok ((m.page p).load l), m) := by
  simp only [handler, if_pos hl]

/-- **`internal_node_find_child` is a binary search.** -/
theorem wp_internalNodeFindChild {Q : ℕ → Mem → Prop} {key : ℕ} (hn : (m.page p).numKeys < 2 ^ 31)
    (ha : ∀ i < (m.page p).numKeys, Access K (m.page p) (.internalKey i)) :
    wp (handler K T) (internalNodeFindChild p key) Q F m ↔ Q ((m.page p).findChild key) m := by
  have hkeys : KeysAt (handler K T) m p (m.page p).numKeys (m.page p).sep :=
    ⟨handler_load (access_header .numKeys), fun i hi => handler_load (ha i hi)⟩
  unfold wp
  rw [run_internalNodeFindChild hkeys hn]
  exact Iff.rfl

/-- **`leaf_node_find` is a binary search.** -/
theorem wp_leafNodeFind {Q : Cursor → Mem → Prop} {key : ℕ} (hp : T p)
    (hn : (m.page p).numCells ≤ 15) :
    wp (handler K T) (leafNodeFind p key) Q F m ↔
      Q (makeCursor p ((m.page p).findCell key)) (m.touch p) := by
  have hget : handler K T (.getPage p) m = (.ok p, m.touch p) := by simp only [handler, if_pos hp]
  have hcells : CellsAt (handler K T) (m.touch p) p (m.page p).numCells (m.page p).key := by
    rw [← page_touch (m := m) (n := p)]
    exact ⟨handler_load (access_header .numCells),
      fun i hi => handler_load (access_leafKey (by rw [page_touch] at hi; omega))⟩
  unfold wp
  rw [run_leafNodeFind hget hcells (by omega)]
  exact Iff.rfl

end Mem

end ToySQL
