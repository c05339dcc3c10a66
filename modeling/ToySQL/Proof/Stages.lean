import ToySQL.Spec.Session

/-!
# The stages of an insertion

The insertion of a row as two programs, one after the other: the work on the leaf, and the
insertion of the new leaf into its parent. No page pointer passes from one to the other.

* `leafNodeInsert_eq`: `leaf_node_insert` is the two stages.
* `leafNodeInsertStep`: `leaf_node_insert` with the split as a parameter.
* `childStage`, `rootStage`: the lookups from the page they go on from.
-/

namespace ToySQL

open Program

variable {P : Type} (fuel : ℕ) (cursor : Cursor) (key : ℕ) (row : Row)

/-- `leaf_node_split_and_insert` up to the insertion into the parent. The result is the
pages of that insertion, if it is still to be made. -/
def leafNodeSplit : Prog P (Option (ℕ × ℕ)) := do
  let oldData ← getPage cursor.pageNum
  let oldMax ← getNodeMaxKey fuel oldData
  let newPageNum ← getUnusedPage
  let newData ← getPage newPageNum
  initializeLeafNode newData
  store newData .parent (← load oldData .parent)
  store newData .nextLeaf (← load oldData .nextLeaf)
  store oldData .nextLeaf newPageNum
  splitLeafCells oldData newData cursor.cellNum key row (leafNodeMaxCells + 1)
  store oldData .numCells leafNodeLeftSplitCount
  store newData .numCells leafNodeRightSplitCount
  if (← isNodeRoot oldData) then
    createNewRoot fuel newPageNum
    return none
  else
    let parentPageNum ← load oldData .parent
    let newMax ← getNodeMaxKey fuel oldData
    let parent ← getPage cursor.pageNum
    updateInternalNodeKey parent (← internalNodeFindChild parent oldMax) newMax
    return some (parentPageNum, newPageNum)

/-- `leaf_node_insert` up to the insertion into the parent. -/
def leafNodeStage : Prog P (Option (ℕ × ℕ)) := do
  let data ← getPage cursor.pageNum
  let numCells ← load data .numCells
  if numCells ≥ leafNodeMaxCells then
    leafNodeSplit fuel cursor key row
  else
    if cursor.cellNum < numCells then
      shiftLeafCells data cursor.cellNum numCells
    store data .numCells (u32 ((← load data .numCells) + 1))
    store data (.leafKey cursor.cellNum) key
    fill data (.leafValue cursor.cellNum) row.serialize
    return none

/-- The insertion into the parent. -/
def parentStage : Option (ℕ × ℕ) → Prog P Unit
  | none => return ()
  | some (parentPageNum, newPageNum) => internalNodeInsert fuel parentPageNum newPageNum

/-- The body of `leaf_node_insert`, for the split `split`. -/
def leafNodeInsertStep (split : Prog P Unit) : Prog P Unit := do
  let data ← getPage cursor.pageNum
  let numCells ← load data .numCells
  if numCells ≥ leafNodeMaxCells then
    split
  else
    if cursor.cellNum < numCells then
      shiftLeafCells data cursor.cellNum numCells
    store data .numCells (u32 ((← load data .numCells) + 1))
    store data (.leafKey cursor.cellNum) key
    fill data (.leafValue cursor.cellNum) row.serialize

/-- `leaf_node_insert` is its step with the split at the end. -/
theorem leafNodeInsert_eq_step : (leafNodeInsert fuel cursor key row : Prog P Unit)
    = leafNodeInsertStep cursor key row (leafNodeSplitAndInsert fuel cursor key row) := rfl

/-- The split of a leaf, then what is done with the parent. -/
theorem leafNodeSplitAndInsert_eq :
    (leafNodeSplitAndInsert fuel cursor key row : Prog P Unit)
      = leafNodeSplit fuel cursor key row >>= parentStage fuel := by
  have hroot : ∀ n : ℕ, (createNewRoot fuel n : Prog P Unit)
      = createNewRoot fuel n >>= fun _ => parentStage fuel none := fun n => (bind_ret_right _).symm
  unfold leafNodeSplitAndInsert leafNodeSplit
  simp only [bind_assoc, ite_bind, pure_eq, bind_ret]
  simp only [← hroot]
  rfl

/-- `leaf_node_insert` in two stages: in the leaf, then in the parent. -/
theorem leafNodeInsert_eq :
    (leafNodeInsert fuel cursor key row : Prog P Unit)
      = leafNodeStage fuel cursor key row >>= parentStage fuel := by
  unfold leafNodeInsert leafNodeStage
  simp only [bind_assoc, ite_bind, pure_eq, bind_ret, leafNodeSplitAndInsert_eq]
  have hfill : ∀ d : P, (fill d (.leafValue cursor.cellNum) row.serialize : Prog P Unit)
      = fill d (.leafValue cursor.cellNum) row.serialize >>= fun _ => parentStage fuel none :=
    fun _ => (bind_ret_right _).symm
  simp only [← hfill]

/-! ## Lookups -/

section

variable (next : ℕ → Prog P Cursor) (pageNum : ℕ)

/-- The end of a step of `internal_node_find`: a leaf is searched, a node descended. -/
def childStage (dataChild : P) : Prog P Cursor := do
  match ← getNodeType dataChild with
  | .leaf => leafNodeFind pageNum key
  | .internal => next pageNum
  | .other _ => fault (.exit "error child type")

/-- One level of `internal_node_find`: the search of the node, then the child. -/
theorem internalNodeFindStep_eq : internalNodeFindStep next pageNum key = (do
    let data ← getPage pageNum
    let childIndex ← internalNodeFindChild data key
    let childNum ← load data (← internalNodeChild data childIndex)
    let dataChild ← getPage childNum
    childStage key next childNum dataChild) := rfl

/-- The end of `table_find`. -/
def rootStage (data : P) : Prog P Cursor := do
  match ← getNodeType data with
  | .leaf => leafNodeFind rootPageNum key
  | .internal => internalNodeFind fuel rootPageNum key
  | .other _ => fault (.exit "no valid node type in table_find")

/-- `table_find` gets the root, then looks at its type. -/
theorem tableFind_eq : (tableFind fuel key : Prog P Cursor) =
    getPage rootPageNum >>= rootStage fuel key := rfl

end

end ToySQL
