import ToySQL.Proof.Nodes
import ToySQL.Spec.View

/-!
# Where a row goes

The leaf and the cell a row goes to, and what the code does to a full leaf there: when the
separator it writes into the leaf itself changes no row.
-/

namespace ToySQL

/-- From the node `p` the separators lead the key to the leaf `q`. -/
inductive LeadsTo (page : ℕ → Page) (key : ℕ) : ℕ → ℕ → Prop where
  | leaf {p} : (page p).isLeaf = true → LeadsTo page key p p
  | node {p q} : (page p).isLeaf = false →
    LeadsTo page key ((page p).childAt ((page p).findChild key)) q → LeadsTo page key p q

/-- The insertion of the key splits no internal node: the leaf has room or is the root, or the
parent has room, or there is no page left for the new leaf and node (and the new root's child). -/
def Pager.SplitsNoNode (s : Pager) (key : ℕ) : Prop :=
  ∀ q, LeadsTo s.page key rootPageNum q →
    (s.page q).numCells < leafNodeMaxCells ∨ q = rootPageNum ∨ (s.page (s.page q).parent).numKeys <
      internalNodeMaxCells ∨
      filePagesNum ≤ s.numPages + 1 ∨ (s.page q).parent = rootPageNum ∧
        filePagesNum ≤ s.numPages + 2

namespace Page

/-- The rows of a leaf and the new one. -/
def rowsWith (pg : Page) (x : ℕ × Bytes rowSize) : List (ℕ × Bytes rowSize) :=
  pg.rows.insertIdx (pg.findCell x.1) x

/-- The largest key of the lower half of a full leaf with the new row. -/
def lowerMax (pg : Page) (x : ℕ × Bytes rowSize) : ℕ :=
  ((pg.rowsWith x)[leafNodeLeftSplitCount - 1]?.map Prod.fst).getD 0

/-- The largest key of the upper half. -/
def upperMax (pg : Page) (x : ℕ × Bytes rowSize) : ℕ :=
  ((pg.rowsWith x)[leafNodeMaxCells]?.map Prod.fst).getD 0

/-- The word of a row that lies where an internal node has the key `i`, if the row is the first
one of a leaf. -/
def word (value : Bytes rowSize) (i : ℕ) : ℕ :=
  (value.slice (i * internalNodeCellSize) internalNodeKeySize).toNat

/-- What `internal_node_find_child` finds in the first row of the lower half. -/
def wordAt (value : Bytes rowSize) (key : ℕ) : ℕ :=
  searchAll (fun i => if key ≤ word value i then .lt else .gt) leafNodeLeftSplitCount

/-- The separator of the two halves, which goes into the first row of the lower one, is already
there. -/
def SeparatorThere (pg : Page) (x : ℕ × Bytes rowSize) : Prop :=
  ∀ first last, (pg.rowsWith x)[0]? = some first → (pg.rowsWith x)[leafNodeLeftSplitCount - 1]? =
    some last →
    word first.2 (wordAt first.2 pg.maxKey) = last.1

end Page

/-- The insertion splits the full leaf `q` below a root with room, where the upper half goes
behind all cells, and the slot that becomes the new cell still holds `INVALID_PAGE_NUM`. -/
structure Pager.HitsStaleSlot (s : Pager) (op : Insertion) (q : ℕ) : Prop where
  leads : LeadsTo s.page op.key.toNat rootPageNum q
  full : (s.page q).numCells = leafNodeMaxCells
  parent : q ≠ rootPageNum ∧ (s.page q).parent = rootPageNum
  room : (s.page rootPageNum).numKeys < internalNodeMaxCells
  page : s.numPages < filePagesNum
  last : (if (s.page rootPageNum).rightChild = q then (s.page q).lowerMax op.cell
      else (s.page (s.page rootPageNum).rightChild).maxKey) < (s.page q).upperMax op.cell ∨
    (s.page rootPageNum).findChild ((s.page q).upperMax op.cell) = (s.page rootPageNum).numKeys
  invalid : (s.page rootPageNum).child (s.page rootPageNum).numKeys = invalidPageNum

end ToySQL
