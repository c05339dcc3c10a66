import ToySQL.Spec.View

/-!
# Insertion into a single leaf

What the insertion of a row does to the table when its only leaf is full, and to a leaf with
room.
-/

namespace ToySQL

/-- The full root leaf was split when the row `x` was inserted at `c`: the pages `left` and
`right` are the leaves of a new root. -/
structure SplitsRoot (page page' : ℕ → Page) (c : ℕ) (x : ℕ × Bytes rowSize) (left right : ℕ) :
    Prop where
  internal : (page' rootPageNum).isInternal = true
  numKeys : (page' rootPageNum).numKeys = 1
  children : (page' rootPageNum).children = [left, right]
  leaf : (page' left).isLeaf = true ∧ (page' right).isLeaf = true
  lower : (page' left).rows = ((page rootPageNum).rows.insertIdx c x).take leafNodeLeftSplitCount
  upper : (page' right).rows = ((page rootPageNum).rows.insertIdx c x).drop leafNodeLeftSplitCount
  numCells : (page' left).numCells = leafNodeLeftSplitCount ∧
    (page' right).numCells = leafNodeRightSplitCount
  sep : (page' left).keys.getLast? = some ((page' rootPageNum).sep 0)
  nextLeaf : (page' left).nextLeaf = right ∧ (page' right).nextLeaf = (page rootPageNum).nextLeaf
  parent : (page' left).parent = rootPageNum ∧ (page' right).parent = rootPageNum
  distinct : [rootPageNum, left, right].Nodup
  isRoot : (page' rootPageNum).isRoot = true ∧ (page' left).isRoot = false ∧
    (page' right).isRoot = false

/-- Where a key belongs among sorted keys: on a cell that has it, or behind the smaller keys. -/
structure Place (keys : List ℕ) (key i : ℕ) : Prop where
  found : key ∈ keys → keys[i]? = some key
  missing : key ∉ keys → i = keys.countP (· < key)

/-- The row `x` was inserted into the leaf `q` at the cell `i`, and nothing else has changed. -/
structure InsertsCell (page page' : ℕ → Page) (q i : ℕ) (x : ℕ × Bytes rowSize) : Prop where
  rows : (page' q).rows = (page q).rows.insertIdx i x
  numCells : (page' q).numCells = (page q).numCells + 1
  sorted : (page' q).keys.Pairwise (· ≤ ·)
  type : (page' q).type = (page q).type
  isRoot : (page' q).isRoot = (page q).isRoot
  parent : (page' q).parent = (page q).parent
  nextLeaf : (page' q).nextLeaf = (page q).nextLeaf
  others : ∀ p < filePagesNum, p ≠ q → page' p = page p

end ToySQL
