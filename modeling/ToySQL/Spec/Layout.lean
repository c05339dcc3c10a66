import ToySQL.Lib.Bytes

/-!
# Rows and the page layout

`btree.h` and `tuple.cpp`: the sizes and offsets of a node page, the `Row` and its
encoding, and the locations the node accessors of `btree.cpp` point to. A location
is an accessor with its index; `Loc.offset` is the byte the accessor's pointer
arithmetic lands on, which nothing bounds by the page.
-/

namespace ToySQL

/-- `uint32_t` arithmetic wraps around. -/
def u32 (n : ℕ) : ℕ := n % 2 ^ 32


/-- `INVALID_PAGE_NUM`, that is `UINT32_MAX`. -/
def invalidPageNum : ℕ := 2 ^ 32 - 1

/-- One less, as a `uint32_t`. -/
def u32Pred (n : ℕ) : ℕ := if n = 0 then 2 ^ 32 - 1 else n - 1

def filePagesNum : ℕ := 1028

def pageSize : ℕ := 4096

/-- The data of a cache entry: `std::array<char, PAGE_SIZE>`. -/
abbrev Page : Type := Bytes pageSize

/-! ## Rows -/

structure Row where
  id : UInt32
  textSize : UInt8
  text : Bytes 255
deriving DecidableEq

def rowSize : ℕ := 4 + 1 + 255

def idOffset : ℕ := 0

def textSizeOffset : ℕ := 4

def textOffset : ℕ := 5

/-- `Row::serialize`. Only `text_size` bytes of the text are copied; the rest of the
buffer stays zero. -/
def Row.serialize (r : Row) : Bytes rowSize :=
  let buffer := Bytes.zero rowSize
  let buffer := buffer.splice idOffset (Bytes.ofNat 4 r.id.toNat)
  let buffer := buffer.splice textSizeOffset (Bytes.ofNat 1 r.textSize.toNat)
  buffer.splice textOffset (r.text.slice 0 r.textSize.toNat)

/-! ## Node layout -/

/-- `NodeType`. A byte cast to it may be neither constant. -/
inductive NodeType where
  | internal
  | leaf
  | other (value : ℕ)
deriving DecidableEq

def NodeType.ofByte : ℕ → NodeType
  | 0 => internal
  | 1 => leaf
  | value => other value

def NodeType.toByte : NodeType → ℕ
  | internal => 0
  | leaf => 1
  | other value => value

def nodeTypeSize : ℕ := 1

def isRootSize : ℕ := 1

def parentPointerSize : ℕ := 4

def nodeTypeOffset : ℕ := 0

def isRootOffset : ℕ := nodeTypeSize

def parentPointerOffset : ℕ := isRootOffset + isRootSize

def commonNodeHeaderSize : ℕ := nodeTypeSize + isRootSize + parentPointerSize

def leafNodeNumCellsOffset : ℕ := commonNodeHeaderSize

def leafNodeNextLeafOffset : ℕ := leafNodeNumCellsOffset + 4

def leafNodeHeaderSize : ℕ := commonNodeHeaderSize + 4 + 4

def internalNodeNumKeysOffset : ℕ := commonNodeHeaderSize

def internalNodeRightChildOffset : ℕ := internalNodeNumKeysOffset + 4

def internalNodeHeaderSize : ℕ := commonNodeHeaderSize + 4 + 4

def leafNodeKeySize : ℕ := 4

def leafNodeValueSize : ℕ := rowSize

def leafNodeCellSize : ℕ := leafNodeKeySize + leafNodeValueSize

def leafNodeSpaceForCells : ℕ := pageSize - leafNodeHeaderSize

def leafNodeMaxCells : ℕ := leafNodeSpaceForCells / leafNodeCellSize

def leafNodeRightSplitCount : ℕ := (leafNodeMaxCells + 1) / 2

def leafNodeLeftSplitCount : ℕ := (leafNodeMaxCells + 1) - leafNodeRightSplitCount

def internalNodeKeySize : ℕ := 4

def internalNodeChildSize : ℕ := 4

def internalNodeCellSize : ℕ := internalNodeChildSize + internalNodeKeySize

def internalNodeMaxCells : ℕ := 3

/-! ## Locations -/

/-- What the accessors of `btree.cpp` return for a node: `leaf_node_cell(node, i)` is
the location `leafCell i` of the node's page. `start` is the page itself. -/
inductive Loc where
  | start
  | nodeType
  | isRoot
  | parent
  | numCells
  | nextLeaf
  | leafCell (cellNum : ℕ)
  | leafKey (cellNum : ℕ)
  | leafValue (cellNum : ℕ)
  | numKeys
  | rightChild
  | internalCell (cellNum : ℕ)
  | internalKey (keyNum : ℕ)
deriving DecidableEq

namespace Loc

/-- The index is multiplied as a `uint32_t`; the product is added to the pointer. -/
def offset : Loc → ℕ
  | start => 0
  | nodeType => nodeTypeOffset
  | isRoot => isRootOffset
  | parent => parentPointerOffset
  | numCells => leafNodeNumCellsOffset
  | nextLeaf => leafNodeNextLeafOffset
  | leafCell i => leafNodeHeaderSize + u32 (i * leafNodeCellSize)
  | leafKey i => leafNodeHeaderSize + u32 (i * leafNodeCellSize)
  | leafValue i => leafNodeHeaderSize + u32 (i * leafNodeCellSize) + leafNodeKeySize
  | numKeys => internalNodeNumKeysOffset
  | rightChild => internalNodeRightChildOffset
  | internalCell i => internalNodeHeaderSize + u32 (i * internalNodeCellSize)
  | internalKey i => internalNodeHeaderSize + u32 (i * internalNodeCellSize) + internalNodeChildSize

/-- The bytes read or written through the pointer: a `uint8_t` for the two flags, a
`uint32_t` otherwise. -/
def width : Loc → ℕ
  | nodeType => nodeTypeSize
  | isRoot => isRootSize
  | _ => 4

end Loc

/-- Reading through a location. -/
def Page.load (p : Page) (l : Loc) : ℕ := (p.slice l.offset l.width).toNat

/-- Writing through a location. -/
def Page.store (p : Page) (l : Loc) (v : ℕ) : Page := p.splice l.offset (Bytes.ofNat l.width v)

end ToySQL
