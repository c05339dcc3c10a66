import ToySQL.Spec.Node

/-!
# The table

The `Table` operations of `btree.cpp`. A recursion of the source takes a bound on its
depth, `fuel`, and ends in `Fault.noReturn` where it would go deeper: the functions
`…Step` are the bodies, with the recursive call as a parameter. The loops of the two
binary searches are bounded by the number of entries.
-/

namespace ToySQL

variable {P : Type}

/-- `Table::root_page_num`, which nothing changes. -/
def rootPageNum : ℕ := 0

/-! ## Maxima and searches -/

def getNodeMaxKeyStep (next : P → Prog P ℕ) (node : P) : Prog P ℕ := do
  if (← getNodeType node) = .leaf then
    let numCells ← load node .numCells
    if numCells = 0 then return 0
    else load node (.leafKey (numCells - 1))
  else
    let numKeys ← load node .numKeys
    if numKeys = 0 then
      let rightChild ← getPage (← load node .rightChild)
      next rightChild
    else load node (.internalKey (numKeys - 1))

/-- `Table::get_node_max_key`. -/
def getNodeMaxKey : ℕ → P → Prog P ℕ
  | 0 => getNodeMaxKeyStep fun _ => fault .noReturn
  | fuel + 1 => getNodeMaxKeyStep (getNodeMaxKey fuel)

def internalNodeFindChildLoop (node : P) (key : ℕ) : ℕ → ℕ → ℕ → ℕ → Prog P ℕ
  | 0, _, _, _ => fault .noReturn
  | rounds + 1, minIndex, maxIndex, ans =>
    if minIndex ≤ maxIndex then do
      let index := u32 (minIndex + maxIndex) / 2
      let keyToRight ← load node (.internalKey index)
      if key ≤ keyToRight then
        if index = 0 then return index
        else internalNodeFindChildLoop node key rounds minIndex (index - 1) index
      else internalNodeFindChildLoop node key rounds (u32 (index + 1)) maxIndex ans
    else return ans

def internalNodeFindChild (node : P) (key : ℕ) : Prog P ℕ := do
  let numKeys ← load node .numKeys
  if numKeys ≠ 0 then internalNodeFindChildLoop node key (numKeys + 1) 0 (numKeys - 1) numKeys
  else return numKeys

def leafNodeFindLoop (data : P) (key : ℕ) : ℕ → ℕ → ℕ → ℕ → Prog P ℕ
  | 0, _, _, _ => fault .noReturn
  | rounds + 1, minIndex, maxIndex, ans =>
    if minIndex ≤ maxIndex then do
      let index := u32 (minIndex + maxIndex) / 2
      let keyAtIndex ← load data (.leafKey index)
      if key = keyAtIndex then return index
      else if key < keyAtIndex then
        if index = 0 then return index
        else leafNodeFindLoop data key rounds minIndex (index - 1) index
      else leafNodeFindLoop data key rounds (u32 (index + 1)) maxIndex ans
    else return ans

def leafNodeFind (pageNum key : ℕ) : Prog P Cursor := do
  let data ← getPage pageNum
  let numCells ← load data .numCells
  if numCells = 0 then return makeCursor pageNum 0
  else
    let ans ← leafNodeFindLoop data key (numCells + 1) 0 (numCells - 1) numCells
    return makeCursor pageNum ans

def internalNodeFindStep (next : ℕ → Prog P Cursor) (pageNum key : ℕ) : Prog P Cursor := do
  let data ← getPage pageNum
  let childIndex ← internalNodeFindChild data key
  let childNum ← load data (← internalNodeChild data childIndex)
  let dataChild ← getPage childNum
  match ← getNodeType dataChild with
  | .leaf => leafNodeFind childNum key
  | .internal => next childNum
  | .other _ => fault (.exit "error child type")

def internalNodeFind : ℕ → ℕ → ℕ → Prog P Cursor
  | 0, pageNum, key => internalNodeFindStep (fun _ => fault .noReturn) pageNum key
  | fuel + 1, pageNum, key =>
    internalNodeFindStep (fun child => internalNodeFind fuel child key) pageNum key

def tableFind (fuel key : ℕ) : Prog P Cursor := do
  let data ← getPage rootPageNum
  match ← getNodeType data with
  | .leaf => leafNodeFind rootPageNum key
  | .internal => internalNodeFind fuel rootPageNum key
  | .other _ => fault (.exit "no valid node type in table_find")

def tableStart (fuel : ℕ) : Prog P Cursor := do
  let cursor ← tableFind fuel 0
  let data ← getPage rootPageNum
  let numCells ← load data .numCells
  return { cursor with endOfTable := numCells = 0 }

/-! ## A new root -/

/-- The loop of `create_new_root`: `count` more children, from child `i` on. -/
def createNewRootLoop (leftChild : P) (leftChildPageNum : ℕ) : ℕ → ℕ → Prog P Unit
  | 0, _ => return ()
  | count + 1, i => do
    let child ← getPage (← load leftChild (← internalNodeChild leftChild i))
    store child .parent leftChildPageNum
    createNewRootLoop leftChild leftChildPageNum count (i + 1)

/-- The children of the old root get their new parent. -/
def adoptChildren (leftChild : P) (leftChildPageNum : ℕ) : Prog P Unit := do
  let internalRightChild ← load leftChild .rightChild
  let childs ← load leftChild .numKeys
  createNewRootLoop leftChild leftChildPageNum childs 0
  let child ← getPage internalRightChild
  store child .parent leftChildPageNum

/-- The end of `create_new_root`: the root becomes an internal node with two children. -/
def linkNewRoot (fuel : ℕ) (root leftChild rightChild : P)
    (leftChildPageNum rightChildPageNum : ℕ) : Prog P Unit := do
  initializeInternalNode root
  setNodeRoot root true
  store root .numKeys 1
  store root (← internalNodeChild root 0) leftChildPageNum
  let leftChildMaxKey ← getNodeMaxKey fuel leftChild
  store root (.internalKey 0) leftChildMaxKey
  store root .rightChild rightChildPageNum
  store leftChild .parent rootPageNum
  store rightChild .parent rootPageNum

def createNewRoot (fuel rightChildPageNum : ℕ) : Prog P Unit := do
  let root ← getPage rootPageNum
  let rightChild ← getPage rightChildPageNum
  let leftChildPageNum ← getUnusedPage
  let leftChild ← getPage leftChildPageNum
  if (← getNodeType root) = .internal then
    initializeInternalNode rightChild
    initializeInternalNode leftChild
  memcpy leftChild .start root .start pageSize
  setNodeRoot leftChild false
  if (← getNodeType leftChild) = .internal then
    adoptChildren leftChild leftChildPageNum
  linkNewRoot fuel root leftChild rightChild leftChildPageNum rightChildPageNum

/-! ## Insertion into internal nodes -/

section Split

-- the recursive call, `internal_node_insert`
variable (insert : ℕ → ℕ → Prog P Unit)

/-- The loop of `internal_node_split_and_insert`, from cell `i` down to the middle. -/
def moveCells (oldNode : P) (newPageNum : ℕ) : ℕ → Prog P Unit
  | 0 => return ()
  | i + 1 =>
    if i + 1 > internalNodeMaxCells / 2 then do
      let curPageNum ← load oldNode (← internalNodeChild oldNode (i + 1))
      let cur ← getPage curPageNum
      insert newPageNum curPageNum
      store cur .parent newPageNum
      store oldNode .numKeys (u32Pred (← load oldNode .numKeys))
      moveCells oldNode newPageNum i
    else return ()

/-- The upper half of `oldNode`, two of its four children, moves to the new page. -/
def moveUpperHalf (oldNode : P) (newPageNum : ℕ) : Prog P Unit := do
  let curPageNum ← load oldNode .rightChild
  let cur ← getPage curPageNum
  insert newPageNum curPageNum
  store cur .parent newPageNum
  store oldNode .rightChild invalidPageNum
  moveCells insert oldNode newPageNum (internalNodeMaxCells - 1)
  let lastChild ← internalNodeChild oldNode (u32Pred (← load oldNode .numKeys))
  store oldNode .rightChild (← load oldNode lastChild)
  store oldNode .numKeys (u32Pred (← load oldNode .numKeys))

/-- The part of `internal_node_split_and_insert` both of its branches go on with: the
halves are separated, and the child goes to one of them. -/
def splitHalves (fuel : ℕ) (oldNode parent child : P)
    (oldPageNum newPageNum childPageNum oldMax childMax : ℕ) : Prog P Unit := do
  moveUpperHalf insert oldNode newPageNum
  let maxAfterSplit ← getNodeMaxKey fuel oldNode
  let destinationPageNum := if childMax < maxAfterSplit then oldPageNum else newPageNum
  insert destinationPageNum childPageNum
  store child .parent destinationPageNum
  updateInternalNodeKey parent oldMax (← getNodeMaxKey fuel oldNode)

def internalNodeSplitAndInsert (fuel parentPageNum childPageNum : ℕ) : Prog P Unit := do
  let oldNode ← getPage parentPageNum
  let oldMax ← getNodeMaxKey fuel oldNode
  let child ← getPage childPageNum
  let childMax ← getNodeMaxKey fuel child
  let newPageNum ← getUnusedPage
  let splittingRoot ← isNodeRoot oldNode
  if splittingRoot then
    createNewRoot fuel newPageNum
    let parent ← getPage rootPageNum
    let oldPageNum ← load parent (← internalNodeChild parent 0)
    let oldNode ← getPage oldPageNum
    splitHalves insert fuel oldNode parent child oldPageNum newPageNum childPageNum oldMax childMax
  else
    let parent ← getPage (← load oldNode .parent)
    let newNode ← getPage newPageNum
    initializeInternalNode newNode
    splitHalves insert fuel oldNode parent child parentPageNum newPageNum childPageNum oldMax
      childMax
    insert (← load oldNode .parent) newPageNum
    store newNode .parent (← load oldNode .parent)

end Split

/-- The loop of `internal_node_insert`: the cells from `index` on move one to the
right, the last one first. -/
def shiftInternalCells (parent : P) (index : ℕ) : ℕ → Prog P Unit
  | 0 => return ()
  | i + 1 =>
    if i + 1 > index then do
      memcpy parent (.internalCell (i + 1)) parent (.internalCell i) internalNodeCellSize
      shiftInternalCells parent index i
    else return ()

/-- The body of `internal_node_insert`, for the split `split`. -/
def internalNodeInsertStep (split : ℕ → ℕ → Prog P Unit) (fuel parentPageNum childPageNum : ℕ) :
    Prog P Unit := do
  let parent ← getPage parentPageNum
  let child ← getPage childPageNum
  let childMaxKey ← getNodeMaxKey fuel child
  let index ← internalNodeFindChild parent childMaxKey
  let originalNumKeys ← load parent .numKeys
  if originalNumKeys ≥ internalNodeMaxCells then
    split parentPageNum childPageNum
  else
    let rightChildPageNum ← load parent .rightChild
    if rightChildPageNum = invalidPageNum then
      store parent .rightChild childPageNum
    else
      let rightChild ← getPage rightChildPageNum
      store parent .numKeys (u32 (originalNumKeys + 1))
      if childMaxKey > (← getNodeMaxKey fuel rightChild) then
        store parent (← internalNodeChild parent originalNumKeys) rightChildPageNum
        store parent (.internalKey originalNumKeys) (← getNodeMaxKey fuel rightChild)
        store parent .rightChild childPageNum
      else
        shiftInternalCells parent index originalNumKeys
        store parent (← internalNodeChild parent index) childPageNum
        store parent (.internalKey index) childMaxKey

def internalNodeInsert : ℕ → ℕ → ℕ → Prog P Unit
  | 0 => internalNodeInsertStep (fun _ _ => fault .noReturn) 0
  | fuel + 1 =>
    internalNodeInsertStep (internalNodeSplitAndInsert (internalNodeInsert fuel) fuel) (fuel + 1)

/-! ## Insertion into leaves -/

/-- The body of the loop of `leaf_node_split_and_insert`: cell `i` of the old cells
with the new one at `cellNum` goes to its half. -/
def splitLeafCell (oldData newData : P) (cellNum key : ℕ) (row : Row) (i : ℕ) : Prog P Unit :=
  let destinationNode := if i ≥ leafNodeLeftSplitCount then newData else oldData
  let indexWithinNode := i % leafNodeLeftSplitCount
  if i = cellNum then do
    fill destinationNode (.leafValue indexWithinNode) row.serialize
    store destinationNode (.leafCell indexWithinNode) key
  else if i > cellNum then
    memcpy destinationNode (.leafCell indexWithinNode) oldData (.leafCell (i - 1)) leafNodeCellSize
  else
    memcpy destinationNode (.leafCell indexWithinNode) oldData (.leafCell i) leafNodeCellSize

/-- The loop, for the cells below `count`, the last one first. -/
def splitLeafCells (oldData newData : P) (cellNum key : ℕ) (row : Row) : ℕ → Prog P Unit
  | 0 => return ()
  | count + 1 => do
    splitLeafCell oldData newData cellNum key row count
    splitLeafCells oldData newData cellNum key row count

/-- The separator of the split leaf is written through the page of the cursor, that is
into the leaf itself, and not into its parent. -/
def leafNodeSplitAndInsert (fuel : ℕ) (cursor : Cursor) (key : ℕ) (row : Row) : Prog P Unit := do
  let oldData ← getPage cursor.pageNum
  let oldMax ← getNodeMaxKey fuel oldData
  let newPageNum ← getUnusedPage
  let newData ← getPage newPageNum
  initializeLeafNode newData
  store newData .parent (← load oldData .parent)
  store newData .nextLeaf (← load oldData .nextLeaf)
  store oldData .nextLeaf newPageNum
  splitLeafCells oldData newData cursor.cellNum key row (leafNodeMaxCells + 1)
  store oldData .numCells leafNodeLeftSplitCount
  store newData .numCells leafNodeRightSplitCount
  if (← isNodeRoot oldData) then
    createNewRoot fuel newPageNum
  else
    let parentPageNum ← load oldData .parent
    let newMax ← getNodeMaxKey fuel oldData
    let parent ← getPage cursor.pageNum
    updateInternalNodeKey parent (← internalNodeFindChild parent oldMax) newMax
    internalNodeInsert fuel parentPageNum newPageNum

/-- The loop of `leaf_node_insert`: the cells from `cellNum` on move one to the right,
the last one first. -/
def shiftLeafCells (data : P) (cellNum : ℕ) : ℕ → Prog P Unit
  | 0 => return ()
  | i + 1 =>
    if i + 1 > cellNum then do
      memcpy data (.leafCell (i + 1)) data (.leafCell i) leafNodeCellSize
      shiftLeafCells data cellNum i
    else return ()

def leafNodeInsert (fuel : ℕ) (cursor : Cursor) (key : ℕ) (row : Row) : Prog P Unit := do
  let data ← getPage cursor.pageNum
  let numCells ← load data .numCells
  if numCells ≥ leafNodeMaxCells then
    leafNodeSplitAndInsert fuel cursor key row
  else
    if cursor.cellNum < numCells then
      shiftLeafCells data cursor.cellNum numCells
    store data .numCells (u32 ((← load data .numCells) + 1))
    store data (.leafKey cursor.cellNum) key
    fill data (.leafValue cursor.cellNum) row.serialize

end ToySQL
