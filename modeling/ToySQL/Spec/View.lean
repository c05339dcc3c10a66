import ToySQL.Spec.Session

/-!
# What the pages say

The contents of a page as its fields, the rows of a leaf, the children of an internal
node, and the contents of all pages as the pager has them: the cached entry if there is
one, the bytes of the file otherwise. `Reaches` are the states of a table.
-/

namespace ToySQL

/-- The row an insertion stores. -/
def Insertion.cell (op : Insertion) : ℕ × Bytes rowSize := (op.key.toNat, op.row.serialize)

namespace Page

variable (pg : Page)

def type : NodeType := .ofByte (pg.load .nodeType)

def isLeaf : Bool := pg.type = .leaf

def isInternal : Bool := pg.type = .internal

def isRoot : Bool := pg.load .isRoot ≠ 0

def parent : ℕ := pg.load .parent

/-! Leaves. -/

def numCells : ℕ := pg.load .numCells

def nextLeaf : ℕ := pg.load .nextLeaf

def key (i : ℕ) : ℕ := pg.load (.leafKey i)

def value (i : ℕ) : Bytes rowSize := pg.slice (Loc.leafValue i).offset rowSize

/-- The stored rows of a leaf: keys and 260-byte values. -/
def rows : List (ℕ × Bytes rowSize) := (List.range pg.numCells).map fun i => (pg.key i, pg.value i)

/-- The keys of a leaf. -/
def keys : List ℕ := pg.rows.map Prod.fst

/-! Internal nodes. -/

def numKeys : ℕ := pg.load .numKeys

def rightChild : ℕ := pg.load .rightChild

def child (i : ℕ) : ℕ := pg.load (.internalCell i)

def sep (i : ℕ) : ℕ := pg.load (.internalKey i)

/-- The children in slot order: those of the cells and then the right child. -/
def children : List ℕ := (List.range pg.numKeys).map pg.child ++ [pg.rightChild]

/-- The child `internal_node_child` points to. -/
def childAt (i : ℕ) : ℕ := if i < pg.numKeys then pg.child i else pg.rightChild

end Page

namespace Pager

variable (s : Pager)

/-- The logical contents of a page. -/
def page (p : ℕ) : Page :=
  match s.cache.pageMap.lookup p with
  | some a => (s.heap.entry a).data
  | none => s.file.file.bytes (p * pageSize) pageSize

/-- The leaf pages of a table. -/
def leaves : List ℕ := (List.range s.numPages).filter fun p => (s.page p).isLeaf

/-- The rows of all leaf pages. -/
def rows : Multiset (ℕ × Bytes rowSize) := ↑(s.leaves.flatMap fun p => (s.page p).rows)

/-- `q` is a child of the internal node `p`. -/
def Child (p q : ℕ) : Prop := (s.page p).isInternal ∧ q ∈ (s.page p).children

/-- The pages that child pointers lead to from the root. -/
def Reachable (p : ℕ) : Prop := Relation.ReflTransGen s.Child rootPageNum p

/-- The leaf `q` is the successor of `p`, where 0 means that there is none. -/
def Successor (p q : ℕ) : Prop := (s.page p).nextLeaf = q ∧ q ≠ 0

end Pager

/-- The state after completed insertions into a table over a new file. -/
def Reaches (cacheSize : ℕ) (uninit : Addr → Page) (fuel : ℕ) (ops : List Insertion) (s : Pager) :
    Prop :=
  Program.run Pager.handler (do initializeTable; insertRows fuel ops)
    (Pager.init File.empty cacheSize uninit) = (.ok (), s)

end ToySQL
