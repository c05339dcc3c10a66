import ToySQL.Spec.Pager

/-!
# Nodes and cursors

The node accessors of `btree.cpp` and the `Cursor`. An accessor that only computes a
pointer is a `Loc`; the ones here read or write the page, or check it.
-/

namespace ToySQL

variable {P : Type}

def getNodeType (node : P) : Prog P NodeType := do
  return .ofByte (← load node .nodeType)

def setNodeType (node : P) (type : NodeType) : Prog P Unit := store node .nodeType type.toByte

/-- `internal_node_child`: the location of a child, after the checks on it. The old
contents of the slot are checked also when the caller is about to overwrite them. -/
def internalNodeChild (node : P) (childNum : ℕ) : Prog P Loc := do
  let numKeys ← load node .numKeys
  if childNum > numKeys then
    fault (.exit "trying to access a child past num_keys in internal_node_child")
  else if childNum = numKeys then
    if (← load node .rightChild) = invalidPageNum then
      fault (.exit "Tried to access right child of node, but was invalid page")
    else return .rightChild
  else
    if (← load node (.internalCell childNum)) = invalidPageNum then
      fault (.exit ("Tried to access child " ++ toString childNum ++
        " of node, but was invalid page"))
    else return .internalCell childNum

def updateInternalNodeKey (node : P) (oldChildIndex newKey : ℕ) : Prog P Unit :=
  store node (.internalKey oldChildIndex) newKey

def isNodeRoot (node : P) : Prog P Bool := do
  return (← load node .isRoot) ≠ 0

def setNodeRoot (node : P) (isRoot : Bool) : Prog P Unit := store node .isRoot isRoot.toNat

def initializeInternalNode (node : P) : Prog P Unit := do
  setNodeType node .internal
  setNodeRoot node false
  store node .numKeys 0
  store node .rightChild invalidPageNum

def initializeLeafNode (node : P) : Prog P Unit := do
  setNodeType node .leaf
  setNodeRoot node false
  store node .numCells 0
  store node .nextLeaf 0

/-! ## Cursors -/

structure Cursor where
  pageNum : ℕ
  cellNum : ℕ
  endOfTable : Bool
deriving DecidableEq

/-- `Table::make_cursor`. -/
def makeCursor (pageNum cellNum : ℕ) : Cursor := ⟨pageNum, cellNum, false⟩

def Cursor.advance (cursor : Cursor) : Prog P Cursor := do
  let data ← getPage cursor.pageNum
  let cellNum := u32 (cursor.cellNum + 1)
  if cellNum ≥ (← load data .numCells) then
    let nextPageNum ← load data .nextLeaf
    if nextPageNum = 0 then return { cursor with cellNum, endOfTable := true }
    else return { cursor with pageNum := nextPageNum, cellNum := 0 }
  else return { cursor with cellNum }

end ToySQL
